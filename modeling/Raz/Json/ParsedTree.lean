import Raz.Json.NodeTexts
import Raz.Lib.ArenaTree

/-!
# The tree of a document

The document parser links its nodes while the arena grows. A container whose items are still being
read is open: behind it in the arena stands the chain of its children so far, and the next child is
linked behind the last of them.

Result: `parses_parseValue`, `parses_parseValueInner`: a value that is parsed is a tree behind the
nodes that were there.
-/

namespace Raz.Json

open Grammar ArenaTree List

variable {keyOffset keyLength child : Int} {index count low high : Nat} {node : JsonNode}
  {nodes' : List JsonNode} {source : List UInt8}

/-! ## Nodes and their tokens -/

def firstOf (nodes : List JsonNode) (index : Nat) : Int :=
  match nodes[index]? with
  | none => -1
  | some node => node.firstChild

def nextOf (nodes : List JsonNode) (index : Nat) : Int :=
  match nodes[index]? with
  | none => -1
  | some node => node.nextSibling

/-- The node of a token that begins a value, without links. -/
def nodeOf (token : JsonToken) (keyOffset keyLength : Int) : JsonNode :=
  if isScalar token.kind then
    leaf (scalarKind token.kind) token.lexeme.start token.lexeme.length keyOffset keyLength
      (token.kind = .true)
  else
    leaf (if token.kind = .leftBrace then .object else .array) token.offset 0 keyOffset keyLength
      false

/-- A token that begins a value. -/
def beginsValue (kind : JsonTokenKind) : Bool :=
  isScalar kind || kind = .leftBrace || kind = .leftBracket

/-- There is no key, or a string token with its range stands in front of a colon, behind which the
bound is. -/
def KeyAt (source : List UInt8) (bound : Nat) (keyOffset keyLength : Int) : Prop :=
  keyOffset = -1 ∧ keyLength = 0 ∨
  ∃ start length : Nat, keyOffset = start ∧ keyLength = length ∧ 1 ≤ start ∧
    start + length ≤ bound ∧
    (next ⟨source, start - 1⟩).1.kind = .string ∧
    (next ⟨source, start - 1⟩).1.lexeme = ⟨start, length⟩ ∧
    (next (next ⟨source, start - 1⟩).2).1.kind = .colon ∧
    (next (next ⟨source, start - 1⟩).2).2 = ⟨source, bound⟩

/-- The ranges of a node lie in the source, and what is read at its place, or behind the colon of
its key, is this node. -/
structure Relexed (source : List UInt8) (node : JsonNode) : Prop where
  place : 0 ≤ placeOf node
  inside : 0 ≤ node.valueLength ∧ node.valueOffset + node.valueLength ≤ source.length
  begins : beginsValue (next ⟨source, (placeOf node).toNat⟩).1.kind = true
  value : unlinked node =
    nodeOf (next ⟨source, (placeOf node).toNat⟩).1 node.keyOffset node.keyLength
  key : ∃ bound ≤ (placeOf node).toNat, KeyAt source bound node.keyOffset node.keyLength ∧
    next ⟨source, bound⟩ = next ⟨source, (placeOf node).toNat⟩

/-- The count of a node is the number of its children, which have keys in objects only, and its
value is made of theirs. -/
def Counted (source : List UInt8) (nodes : List JsonNode) (index : Nat) (children : List Nat) :
    Prop :=
  ∃ node, nodes[index]? = some node ∧ node.childCount = children.length ∧
    (∀ child ∈ children, ∃ below, nodes[child]? = some below ∧
      (0 ≤ below.keyOffset ↔ node.kind = .object)) ∧
    Composed source nodes node.kind (textAt source node) children

/-- The links of the arena from a link on. -/
abbrev Forest (source : List UInt8) (nodes : List JsonNode) : Int → Nat → Nat → List Nat → Prop :=
  Chain (firstOf nodes) (nextOf nodes) (Counted source nodes)

/-- The nodes behind the first ones are read again, and in the order of the source. -/
structure Ordered (source : List UInt8) (nodes : List JsonNode) (count low high : Nat) : Prop where
  relexed : ∀ index, count ≤ index → ∀ node ∈ nodes[index]?, Relexed source node
  range : ∀ index, count ≤ index → ∀ node ∈ nodes[index]?,
    (low : Int) ≤ node.valueOffset ∧ node.valueOffset < high
  sorted : ∀ index index', count ≤ index → index < index' → ∀ node ∈ nodes[index]?,
    ∀ node' ∈ nodes[index']?, node.valueOffset < node'.valueOffset

/-- A value that is parsed from the lexer is a tree behind the nodes. -/
structure ParsedTo (lexer : JsonLexer) (nodes : List JsonNode) (keyOffset keyLength : Int)
    (result : ParseResult) : Prop where
  source : result.lexer.source = lexer.source
  cursor : lexer.cursor ≤ result.lexer.cursor ∧ result.lexer.Inside
  output : result.output = nodes.length
  kept : ∀ index < nodes.length, result.nodes[index]? = nodes[index]?
  key : ∃ node, result.nodes[nodes.length]? = some node ∧ node.keyOffset = keyOffset ∧
    node.keyLength = keyLength ∧ textAt lexer.source node = (skipWhitespace lexer).rest
  tree : Forest lexer.source result.nodes nodes.length nodes.length result.nodes.length
    [nodes.length]
  ordered : Ordered lexer.source result.nodes nodes.length lexer.cursor result.lexer.cursor

/-- Every call that succeeds leaves such a tree. -/
def Parses (parse : Parser) : Prop :=
  ∀ lexer nodes keyOffset keyLength, lexer.Inside →
    KeyAt lexer.source lexer.cursor keyOffset keyLength →
    (parse lexer nodes keyOffset keyLength).error = .none →
    ParsedTo lexer nodes keyOffset keyLength (parse lexer nodes keyOffset keyLength)

theorem nodeOf_range {value : JsonLexer} (hbegins : beginsValue (next value).1.kind = true)
    (hspans : Spans (next value).1.offset (next value)) (keyOffset keyLength : Int) :
    placeOf (nodeOf (next value).1 keyOffset keyLength) = (next value).1.offset ∧
      0 ≤ (nodeOf (next value).1 keyOffset keyLength).valueLength ∧
      ((next value).1.offset : Int) ≤ (nodeOf (next value).1 keyOffset keyLength).valueOffset ∧
      (nodeOf (next value).1 keyOffset keyLength).valueOffset < (next value).2.cursor ∧
      (nodeOf (next value).1 keyOffset keyLength).valueOffset +
        (nodeOf (next value).1 keyOffset keyLength).valueLength ≤ (next value).2.cursor := by
  have hlexeme := hspans.lexeme
  have hnonempty := hspans.nonempty
  have hinside := hspans.inside
  generalize (next value).2.cursor = behind at hnonempty hinside ⊢
  generalize (next value).1 = token at hbegins hlexeme hnonempty hinside ⊢
  obtain ⟨kind, lexeme, offset, error⟩ := token
  dsimp only at hbegins hlexeme hnonempty hinside ⊢
  cases kind with
  | string =>
    rw [if_pos rfl] at hlexeme
    refine ⟨?_, Int.natCast_nonneg _, ?_, ?_, ?_⟩
    · show (lexeme.start : Int) - 1 = offset
      omega
    · show (offset : Int) ≤ lexeme.start
      omega
    · exact Int.ofNat_lt.mpr hnonempty
    · exact Int.ofNat_le.mpr hinside
  | number | true | false | null =>
    rw [if_neg nofun, Nat.add_zero] at hlexeme
    refine ⟨?_, Int.natCast_nonneg _, ?_, ?_, ?_⟩
    · exact congrArg Nat.cast hlexeme
    · exact Int.ofNat_le.mpr (Nat.le_of_eq hlexeme.symm)
    · exact Int.ofNat_lt.mpr hnonempty
    · exact Int.ofNat_le.mpr hinside
  | leftBrace | leftBracket =>
    rw [if_neg nofun, Nat.add_zero] at hlexeme
    have hlt : (offset : Int) < behind := by omega
    exact ⟨rfl, Int.le_refl 0, Int.le_refl _, hlt, by
      show (offset : Int) + 0 ≤ behind
      omega⟩
  | rightBrace | rightBracket | colon | comma | endOfText | error => nomatch hbegins

theorem beginsValue_ne {kind : JsonTokenKind} (h : beginsValue kind = true) :
    kind ≠ .error ∧ kind ≠ .endOfText := by
  refine ⟨?_, ?_⟩
  · rintro rfl
    nomatch h
  · rintro rfl
    nomatch h

theorem unlinked_nodeOf (token : JsonToken) (keyOffset keyLength : Int) :
    unlinked (nodeOf token keyOffset keyLength) = nodeOf token keyOffset keyLength := by
  unfold nodeOf
  split <;> rfl

theorem nodeOf_key (token : JsonToken) (keyOffset keyLength : Int) :
    (nodeOf token keyOffset keyLength).keyOffset = keyOffset ∧
      (nodeOf token keyOffset keyLength).keyLength = keyLength := by
  unfold nodeOf
  split
  · exact ⟨rfl, rfl⟩
  · exact ⟨rfl, rfl⟩

/-- **The node of a token is read again.** -/
theorem relexed_nodeOf {value : JsonLexer} (h : value.Inside)
    (hbegins : beginsValue (next value).1.kind = true)
    (hkey : KeyAt value.source value.cursor keyOffset keyLength) :
    Relexed value.source (nodeOf (next value).1 keyOffset keyLength) := by
  obtain ⟨herr, hend⟩ := beginsValue_ne hbegins
  obtain ⟨hcur, hspans⟩ := next_spans h herr hend
  have hsrc := hspans.source
  rw [next_source] at hsrc
  obtain ⟨hplace, hlen, hlow, -, hinside⟩ := nodeOf_range hbegins hspans keyOffset keyLength
  obtain ⟨hkeyOffset, hkeyLength⟩ := nodeOf_key (next value).1 keyOffset keyLength
  have hagain : next ⟨value.source, (placeOf (nodeOf (next value).1 keyOffset keyLength)).toNat⟩ =
      next value := by
    rw [hplace, Int.toNat_natCast, next_again]
  refine ⟨?_, ⟨hlen, by omega⟩, ?_, ?_, ?_⟩
  · rw [hplace]
    exact Int.natCast_nonneg _
  · rw [hagain]
    exact hbegins
  · rw [hagain, hkeyOffset, hkeyLength, unlinked_nodeOf]
  refine ⟨value.cursor, ?_, ?_, hagain.symm⟩
  · rw [hplace]
    exact hcur
  · rw [hkeyOffset, hkeyLength]
    exact hkey

/-! ## Links -/

/-- What `attach_child` does to the node at an index. -/
def linkNode (parent child previous : Int) (index : Nat) (node : JsonNode) : JsonNode :=
  { node with
    firstChild := if parent = index ∧ node.firstChild < 0 then child else node.firstChild
    nextSibling := if previous = index then child else node.nextSibling
    childCount := if parent = index then node.childCount + 1 else node.childCount }

theorem linkNode_self {parent previous : Int} (hparent : parent ≠ index)
    (hprev : previous ≠ index) (node : JsonNode) :
    linkNode parent child previous index node = node := by
  unfold linkNode
  rw [if_neg fun h => hparent h.1, if_neg hprev, if_neg hparent]

/-- A child is linked to its parent and to the sibling in front of it. -/
theorem attachChild_eq {nodes : List JsonNode} {parent child previous : Int} (h : 0 ≤ parent)
    (hlt : parent < nodes.length) (hprev : previous < nodes.length) :
    (attachChild nodes parent child previous).1 = true ∧
      ∀ index : Nat, (attachChild nodes parent child previous).2[index]? =
        (nodes[index]?).map (linkNode parent child previous index) := by
  unfold attachChild
  rw [elementAddress_of_lt h hlt]
  dsimp only
  have hparent (index : Nat) : parent.toNat = index ↔ parent = index := by omega
  split
  · rename_i hsome
    rw [elementAddress_of_lt hsome (by rw [List.length_modify]; exact hprev)]
    refine ⟨rfl, fun index => ?_⟩
    have hlast : previous.toNat = index ↔ previous = index := by omega
    rw [List.getElem?_modify, List.getElem?_modify]
    cases nodes[index]? with
    | none => rfl
    | some node =>
      simp only [Option.map_some, Option.map_eq_map, hparent, hlast]
      unfold linkNode
      by_cases hp : parent = index <;> by_cases hl : previous = index <;> simp [hp, hl]
  · rename_i hnone
    refine ⟨rfl, fun index => ?_⟩
    have hlast : previous ≠ index := by omega
    rw [List.getElem?_modify]
    cases nodes[index]? with
    | none => rfl
    | some node =>
      simp only [Option.map_some, Option.map_eq_map, hparent]
      unfold linkNode
      by_cases hp : parent = index <;> simp [hp, hlast]

/-! ## Open containers -/

/-- The link to a node, if there is one. -/
def linkTo : Option Nat → Int
  | none => -1
  | some index => index

theorem linkNode_parent (container : JsonNode) (children : List Nat) (parent child : Nat)
    {previous : Int} (h : previous ≠ parent) :
    linkNode parent child previous parent
        { container with firstChild := linkTo children.head?, childCount := children.length } =
      { container with
        firstChild := linkTo (children ++ [child]).head?
        childCount := (children ++ [child]).length } := by
  have hlink : (if (parent : Int) = parent ∧ linkTo children.head? < 0 then (child : Int)
      else linkTo children.head?) = linkTo (children ++ [child]).head? := by
    cases children with
    | nil => exact if_pos ⟨rfl, by decide⟩
    | cons head tail => exact if_neg fun hnone => absurd hnone.2 (Int.not_lt.mpr (by
        exact Int.natCast_nonneg head))
  have hcount : (children.length : Int) + 1 = (children ++ [child]).length := by
    rw [length_append]
    rfl
  unfold linkNode
  rw [if_neg h, if_pos rfl, hlink, hcount]

/-- A container behind the nodes whose items are being read: its children so far stand behind it,
and the last of them is `previous`. -/
structure Open (before : List JsonNode) (container : JsonNode) (lexer : JsonLexer)
    (nodes : List JsonNode) (previous : Int) (children : List Nat) : Prop where
  inside : lexer.Inside
  kept : ∀ index < before.length, nodes[index]? = before[index]?
  length : before.length < nodes.length
  node : nodes[before.length]? = some
    { container with firstChild := linkTo children.head?, childCount := children.length }
  forest : Forest lexer.source nodes (linkTo children.head?) (before.length + 1) nodes.length
    children
  last : previous = linkTo children.getLast?
  keys : ∀ child ∈ children, ∃ below, nodes[child]? = some below ∧
    (0 ≤ below.keyOffset ↔ container.kind = .object)
  relexed : Relexed lexer.source container
  ordered : Ordered lexer.source nodes (before.length + 1) (container.valueOffset + 1).toNat
    lexer.cursor
  behind : container.valueOffset < lexer.cursor

section

variable {before nodes : List JsonNode} {container : JsonNode} {lexer : JsonLexer}
  {previous : Int} {children : List Nat}

theorem firstOf_some (h : nodes[index]? = some node) : firstOf nodes index = node.firstChild := by
  unfold firstOf
  rw [h]

theorem nextOf_some (h : nodes[index]? = some node) : nextOf nodes index = node.nextSibling := by
  unfold nextOf
  rw [h]

theorem nodeAt_linked {parent : Int} (hnodes : ∀ index : Nat, nodes'[index]? =
      (nodes[index]?).map (linkNode parent child previous index)) (index : Nat) :
    nodeAt nodes' index = nodeAt nodes index := by
  unfold nodeAt
  rw [hnodes]
  cases nodes[index]? with
  | none => rfl
  | some node => rfl

section

variable {parent : Nat} (hnodes : ∀ index : Nat, nodes'[index]? =
  (nodes[index]?).map (linkNode parent child previous index))

include hnodes

theorem getElem?_linked (hparent : parent ≠ index) (hprev : previous ≠ index) :
    nodes'[index]? = nodes[index]? := by
  rw [hnodes]
  cases nodes[index]? with
  | none => rfl
  | some node => exact congrArg some (linkNode_self (by omega) hprev node)

theorem firstOf_linked (hparent : parent ≠ index) : firstOf nodes' index = firstOf nodes index := by
  unfold firstOf
  rw [hnodes]
  cases nodes[index]? with
  | none => rfl
  | some node => exact if_neg fun heq => hparent (Int.ofNat_inj.mp heq.1)

theorem nextOf_linked (hprev : previous ≠ index) : nextOf nodes' index = nextOf nodes index := by
  unfold nextOf
  rw [hnodes]
  cases nodes[index]? with
  | none => rfl
  | some node => exact if_neg hprev

end

/-- The links and counts of a node that is neither the parent nor the sibling stay, and the sibling
only gets its link. -/
theorem counted_linked {parent : Nat} (hnodes : ∀ index : Nat, nodes'[index]? = (nodes[index]?).map
      (linkNode parent child previous index)) {items : List Nat}
    (hidx : ∀ item ∈ index :: items, parent < item) (h : Counted source nodes index items) :
    Counted source nodes' index items := by
  obtain ⟨node, hnode, hcount, hkeys, hcomposed⟩ := h
  obtain ⟨hhere, -⟩ := forall_mem_cons.mp hidx
  have hne : ¬ (parent : Int) = index := by omega
  refine ⟨linkNode parent child previous index node, by rw [hnodes, hnode]; rfl,
    (if_neg hne).trans hcount, fun item hitem => ?_,
    hcomposed.congr fun item _ => nodeAt_linked hnodes item⟩
  obtain ⟨below, hbelow, hkey⟩ := hkeys item hitem
  exact ⟨linkNode parent child previous item below, by rw [hnodes, hbelow]; rfl, hkey⟩

theorem Relexed.linked (h : Relexed source node) (parent child previous : Int) (index : Nat) :
    Relexed source (linkNode parent child previous index node) :=
  ⟨h.place, h.inside, h.begins, h.value, h.key⟩

section

variable (h : Ordered source nodes count low high)

include h

theorem Ordered.linked {parent : Int} (hnodes : ∀ index :
      Nat, nodes'[index]? = (nodes[index]?).map (linkNode parent child previous index)) :
    Ordered source nodes' count low high := by
  have hfrom {index : Nat} {node' : JsonNode} (hnode' : node' ∈ nodes'[index]?) :
      ∃ node ∈ nodes[index]?, node' = linkNode parent child previous index node := by
    rw [hnodes] at hnode'
    obtain ⟨node, hnode, rfl⟩ := Option.map_eq_some_iff.mp hnode'
    exact ⟨node, hnode, rfl⟩
  refine ⟨fun index hcount node' hnode' => ?_, fun index hcount node' hnode' => ?_,
    fun index index' hcount hlt node hnode node' hnode' => ?_⟩
  · obtain ⟨node, hnode, rfl⟩ := hfrom hnode'
    exact (h.relexed index hcount node hnode).linked _ _ _ _
  · obtain ⟨node, hnode, rfl⟩ := hfrom hnode'
    exact h.range index hcount node hnode
  · obtain ⟨first, hfirst, rfl⟩ := hfrom hnode
    obtain ⟨second, hsecond, rfl⟩ := hfrom hnode'
    exact h.sorted index index' hcount hlt first hfirst second hsecond

theorem Ordered.append {low' high' : Nat}
    (h' : Ordered source nodes' nodes.length low' high')
    (hkept : ∀ index < nodes.length, nodes'[index]? = nodes[index]?) (hlow : low ≤ low')
    (hhigh : high ≤ low') (hend : high ≤ high') : Ordered source nodes' count low high' := by
  refine ⟨fun index hcount node hnode => ?_, fun index hcount node hnode => ?_,
    fun index index' hcount hlt node hnode node' hnode' => ?_⟩
  · rcases Nat.lt_or_ge index nodes.length with hold | hnew
    · exact h.relexed index hcount node (hkept index hold ▸ hnode)
    · exact h'.relexed index hnew node hnode
  · rcases Nat.lt_or_ge index nodes.length with hold | hnew
    · have hrange := h.range index hcount node (hkept index hold ▸ hnode)
      omega
    · have hrange := h'.range index hnew node hnode
      omega
  · rcases Nat.lt_or_ge index' nodes.length with hold' | hnew'
    · have hold := Nat.lt_trans hlt hold'
      exact h.sorted index index' hcount hlt node (hkept index hold ▸ hnode) node'
        (hkept index' hold' ▸ hnode')
    rcases Nat.lt_or_ge index nodes.length with hold | hnew
    · have hrange := h.range index hcount node (hkept index hold ▸ hnode)
      have hrange' := h'.range index' hnew' node' hnode'
      omega
    · exact h'.sorted index index' hnew hlt node hnode node' hnode'

theorem Ordered.mono {low' high' : Nat}
    (hlow : low' ≤ low) (hhigh : high ≤ high') :
    Ordered source nodes count low' high' := by
  refine ⟨h.relexed, fun index hcount node hnode => ?_, h.sorted⟩
  have hrange := h.range index hcount node hnode
  omega

end

theorem Forest.kept {link : Int} {lo : Nat} {items : List Nat}
    (h : Forest source nodes link lo nodes.length items)
    (hkept : ∀ index < nodes.length, nodes'[index]? = nodes[index]?) :
    Forest source nodes' link lo nodes.length items := by
  refine h.congr (fun index _ hlt => ?_) fun index children hitems hcounted => ?_
  · unfold firstOf nextOf
    rw [hkept index hlt]
    exact ⟨rfl, rfl⟩
  obtain ⟨hhere, hbelow⟩ := forall_mem_cons.mp hitems
  obtain ⟨node, hnode, hcount, hkeys, hcomposed⟩ := hcounted
  refine ⟨node, (hkept index hhere.2).trans hnode, hcount, fun child hchild => ?_,
    hcomposed.congr fun child hchild =>
      congrArg (Option.map unlinked) (hkept child (hbelow child hchild).2)⟩
  obtain ⟨below, hnode', hkey⟩ := hkeys child hchild
  exact ⟨below, (hkept child (hbelow child hchild).2).trans hnode', hkey⟩

section

variable (h : Open before container lexer nodes previous children)

include h

/-- The sibling in front of the next child, if there is one. -/
theorem Open.previous_cases :
    previous = -1 ∧ children = [] ∨
      ∃ last : Nat, previous = last ∧ last ∈ children.getLast? ∧ before.length < last ∧
        last < nodes.length := by
  have hlast := h.last
  cases hfound : children.getLast? with
  | none =>
    rw [hfound] at hlast
    exact .inl ⟨hlast, List.getLast?_eq_none_iff.mp hfound⟩
  | some last =>
    rw [hfound] at hlast
    have hitem := h.forest.sorted.1 last (mem_of_mem_getLast? hfound)
    exact .inr ⟨last, hlast, rfl, by omega, hitem.2⟩

/-- **A child is linked to an open container.** -/
theorem Open.attach {lexer' : JsonLexer} {parsed : ParseResult}
    (hparsed : ParsedTo lexer' nodes keyOffset keyLength parsed)
    (hsrc : lexer'.source = lexer.source)
    (hle : lexer.cursor ≤ lexer'.cursor) (hkey : 0 ≤ keyOffset ↔ container.kind = .object) :
    (attachChild parsed.nodes before.length parsed.output previous).1 = true ∧
    (∀ index, nodeAt (attachChild parsed.nodes before.length parsed.output previous).2 index =
      nodeAt parsed.nodes index) ∧
    ∀ lexer'' : JsonLexer, lexer''.source = lexer.source → lexer''.Inside →
      parsed.lexer.cursor ≤ lexer''.cursor →
      Open before container lexer''
        (attachChild parsed.nodes before.length parsed.output previous).2 parsed.output
        (children ++ [nodes.length]) := by
  have hlen := h.length
  have htree := hparsed.tree
  have hgrown : nodes.length < parsed.nodes.length :=
    (htree.sorted.1 _ (mem_singleton_self _)).2
  have hrange := h.forest.sorted.1
  have hplace := h.previous_cases
  obtain ⟨hattached, hnodes⟩ := @attachChild_eq parsed.nodes before.length parsed.output previous
    (Int.natCast_nonneg _) (by omega) (by omega)
  have hsame := (@attachChild_of_lt parsed.nodes before.length parsed.output previous
    (Int.natCast_nonneg _) (by omega) (by omega)).2
  refine ⟨hattached, nodeAt_linked hnodes, fun lexer'' hsource'' hinside hcur => ?_⟩
  rw [hparsed.output] at hnodes hsame ⊢
  generalize (attachChild parsed.nodes before.length nodes.length previous).2 = nodes'
    at hnodes hsame ⊢
  have hcounted {low : Nat} (hlow : before.length < low) {high : Nat} (index : Nat)
      (items : List Nat) (hitems : ∀ item ∈ index :: items, low ≤ item ∧ item < high)
      (hgood : Counted lexer.source parsed.nodes index items) :
      Counted lexer.source nodes' index items :=
    counted_linked hnodes (fun item hitem => Nat.lt_of_lt_of_le hlow (hitems item hitem).1) hgood
  have hcontainer : parsed.nodes[before.length]? = _ := (hparsed.kept _ hlen).trans h.node
  have hforest := h.forest.kept hparsed.kept
  rw [hsrc] at htree
  refine ⟨hinside, fun index hidx => ?_, ?_, ?_, ?_, ?_, fun item hitem => ?_, ?_, ?_, ?_⟩
  · rw [getElem?_linked hnodes (by omega) (by omega), hparsed.kept index (by omega),
      h.kept index hidx]
  · omega
  · rw [hnodes, hcontainer, Option.map_some, linkNode_parent container children _ _ (by omega)]
  · rw [hsame, hsource'']
    obtain ⟨rfl, rfl⟩ | ⟨last, hlink, hlast, hlow, -⟩ := hplace
    · -- the only child
      have hstart := h.forest.eq_of_nil
      rw [hstart]
      refine htree.congr (fun index hlo _ =>
        ⟨firstOf_linked hnodes (by omega), nextOf_linked hnodes (by omega)⟩)
        (hcounted (by omega))
    · have hhead : linkTo (children ++ [nodes.length]).head? = linkTo children.head? := by
        cases children with
        | nil => nomatch hlast
        | cons => rfl
      rw [hhead]
      refine hforest.snoc hlast htree (fun index hlo _ => firstOf_linked hnodes (by omega)) ?_
        (fun index _ _ hne => nextOf_linked hnodes (by omega)) (hcounted (Nat.lt_succ_self _))
      have hfound := hrange last (mem_of_mem_getLast? hlast)
      unfold nextOf
      rw [hnodes, List.getElem?_eq_getElem (Nat.lt_trans hfound.2 hgrown)]
      exact if_pos hlink
  · rw [List.getLast?_concat]
    rfl
  · have hlinked {index : Nat} {node : JsonNode} (hfound : parsed.nodes[index]? = some node)
        (hoff : 0 ≤ node.keyOffset ↔ container.kind = .object) : ∃ below,
          nodes'[index]? = some below ∧ (0 ≤ below.keyOffset ↔ container.kind = .object) :=
      ⟨linkNode before.length nodes.length previous index node,
        (hnodes index).trans (congrArg _ hfound), hoff⟩
    rcases mem_append.mp hitem with hitem | hitem
    · obtain ⟨below, hbelow, hoff⟩ := h.keys item hitem
      exact hlinked ((hparsed.kept item (hrange item hitem).2).trans hbelow) hoff
    · obtain rfl := mem_singleton.mp hitem
      obtain ⟨node, hfound, rfl, -⟩ := hparsed.key
      exact hlinked hfound hkey
  · rw [hsource'']
    exact h.relexed
  · have hbehind := h.behind
    have hread := hparsed.cursor.1
    have hnew := hparsed.ordered
    rw [hsrc] at hnew
    rw [hsource'']
    exact ((h.ordered.append hnew hparsed.kept (by omega) hle (by omega)).linked hnodes).mono
      le_rfl hcur
  · have hbehind := h.behind
    have hcur' := hparsed.cursor.1
    omega

theorem Open.move {lexer' : JsonLexer} (hsrc : lexer'.source = lexer.source)
    (hinside : lexer'.Inside) (hle : lexer.cursor ≤ lexer'.cursor) :
    Open before container lexer' nodes previous children := by
  have hbehind := h.behind
  refine ⟨hinside, h.kept, h.length, h.node, ?_, h.last, h.keys, ?_, ?_, by omega⟩
  · rw [hsrc]
    exact h.forest
  · rw [hsrc]
    exact h.relexed
  · rw [hsrc]
    exact h.ordered.mono le_rfl hle

theorem Open.close (hnext : container.nextSibling = -1)
    {start : JsonLexer} (hsrc : start.source = lexer.source)
    (hle : (start.cursor : Int) ≤ container.valueOffset)
    (htext : textAt start.source container = (skipWhitespace start).rest)
    (hcomposed : Composed start.source nodes container.kind (skipWhitespace start).rest children) :
    ParsedTo start before container.keyOffset container.keyLength
      ⟨.none, lexer, nodes, before.length⟩ := by
  have hbehind := h.behind
  have hgood : Counted start.source nodes before.length children :=
    ⟨_, h.node, rfl, h.keys, htext.symm ▸ hcomposed⟩
  have hbelow : Forest start.source nodes (firstOf nodes before.length) (before.length + 1)
      nodes.length children := by
    rw [firstOf_some h.node, hsrc]
    exact h.forest
  have hlast : nextOf nodes before.length < 0 := by
    rw [nextOf_some h.node]
    show container.nextSibling < 0
    rw [hnext]
    decide
  -- the container is in front of its items
  have hcontainer {index : Nat} (hcount : before.length ≤ index) {node : JsonNode}
      (hnode : node ∈ nodes[index]?) : before.length + 1 ≤ index ∨ index = before.length ∧
        node.valueOffset = container.valueOffset ∧ Relexed lexer.source node := by
    rcases Nat.lt_or_ge before.length index with hlt | hge
    · exact .inl hlt
    obtain rfl : index = before.length := Nat.le_antisymm hge hcount
    obtain rfl := Option.some.inj (h.node.symm.trans hnode)
    have hrelexed := h.relexed
    exact .inr ⟨rfl, rfl, hrelexed.place, hrelexed.inside, hrelexed.begins, hrelexed.value,
      hrelexed.key⟩
  refine ⟨hsrc.symm, ⟨by dsimp only; omega, h.inside⟩, rfl, h.kept,
    ⟨_, h.node, rfl, rfl, htext⟩, .cons hgood hbelow (.nil hlast), ⟨?_, ?_, ?_⟩⟩
  · rw [hsrc]
    intro index hcount node hnode
    obtain hitem | ⟨-, -, hrelexed⟩ := hcontainer hcount hnode
    · exact h.ordered.relexed index hitem node hnode
    · exact hrelexed
  · intro index hcount node hnode
    dsimp only
    obtain hitem | ⟨-, hplace, -⟩ := hcontainer hcount hnode
    · have hrange := h.ordered.range index hitem node hnode
      omega
    · omega
  · intro index index' hcount hlt node hnode node' hnode'
    have hrange := h.ordered.range index' (Nat.lt_of_le_of_lt hcount hlt) node' hnode'
    obtain hitem | ⟨-, hplace, -⟩ := hcontainer hcount hnode
    · exact h.ordered.sorted index index' hitem hlt node hnode node' hnode'
    · omega

end

end

/-! ## One level -/

theorem next_inside {value : JsonLexer} (h : value.Inside)
    (herr : (next value).1.kind ≠ .error) (hend : (next value).1.kind ≠ .endOfText) :
    (next value).2.source = value.source ∧ (next value).2.Inside ∧
      value.cursor ≤ (next value).2.cursor := by
  obtain ⟨hle, hspans⟩ := next_spans h herr hend
  have hlexeme := hspans.lexeme
  have hnonempty := hspans.nonempty
  refine ⟨next_source value, hspans.source, ?_⟩
  omega

theorem parseKey_spec (object : Bool) {lexer : JsonLexer} (h : lexer.Inside)
    (herr : (parseKey object lexer).1 = .none) :
    (parseKey object lexer).2.1.source = lexer.source ∧ (parseKey object lexer).2.1.Inside ∧
      lexer.cursor ≤ (parseKey object lexer).2.1.cursor ∧
      KeyAt lexer.source (parseKey object lexer).2.1.cursor (parseKey object lexer).2.2.1
        (parseKey object lexer).2.2.2 ∧
      (0 ≤ (parseKey object lexer).2.2.1 ↔ object = true) := by
  cases object with
  | false => exact ⟨rfl, h, le_rfl, .inl ⟨rfl, rfl⟩, nofun, nofun⟩
  | true =>
    unfold parseKey at herr ⊢
    simp only [if_true] at herr ⊢
    rcases Decidable.em ((next lexer).1.kind = .error) with hkey | hkey
    · rw [if_pos hkey] at herr
      exact absurd herr (next_error hkey)
    simp only [if_neg hkey] at herr ⊢
    rcases Decidable.em ((next lexer).1.kind ≠ .string) with hstr | hstr
    · rw [if_pos hstr] at herr
      nomatch herr
    simp only [if_neg hstr] at herr ⊢
    rcases Decidable.em ((next (next lexer).2).1.kind ≠ .colon) with hcolon | hcolon
    · rw [if_pos hcolon] at herr
      split at herr
      · rename_i hkind
        exact absurd herr (next_error hkind)
      · nomatch herr
    simp only [if_neg hcolon] at herr ⊢
    have hstr := Classical.not_not.mp hstr
    have hcolon := Classical.not_not.mp hcolon
    obtain ⟨hle, hspans⟩ := next_spans h hkey (by rw [hstr]; nofun)
    obtain ⟨hsrc, hinside, hcur⟩ := next_inside h hkey (by rw [hstr]; nofun)
    obtain ⟨hsrc', hinside', hcur'⟩ :=
      next_inside hinside (by rw [hcolon]; nofun) (by rw [hcolon]; nofun)
    have hlexeme := hspans.lexeme
    rw [if_pos hstr] at hlexeme
    have hread := hspans.inside
    have hagain : next ⟨lexer.source, (next lexer).1.lexeme.start - 1⟩ = next lexer := by
      rw [hlexeme, Nat.add_sub_cancel, next_again]
    refine ⟨hsrc'.trans hsrc, hinside', Nat.le_trans hcur hcur',
      .inr ⟨_, _, rfl, rfl, ?_, ?_, ?_, ?_, ?_, ?_⟩, fun _ => trivial,
      fun _ => Int.natCast_nonneg _⟩
    · omega
    · omega
    · rw [hagain]
      exact hstr
    · rw [hagain]
    · rw [hagain]
      exact hcolon
    · rw [hagain, ← hsrc'.trans hsrc]

section

variable {parse : Parser} {before : List JsonNode} {container : JsonNode}

/-- **A child stands for the item** that is read for it. -/
theorem item_parsed (htexts : Texts parse) (object : Bool) {lexer : JsonLexer}
    {nodes : List JsonNode} (herr : (parseKey object lexer).1 = .none)
    (hsrc : (parseKey object lexer).2.1.source = lexer.source) {parsed : ParseResult}
    (hcall : parse (parseKey object lexer).2.1 nodes (parseKey object lexer).2.2.1
      (parseKey object lexer).2.2.2 = parsed) (hok : parsed.error = .none)
    (hparsed : ParsedTo (parseKey object lexer).2.1 nodes (parseKey object lexer).2.2.1
      (parseKey object lexer).2.2.2 parsed)
    (hnode : nodeAt nodes' nodes.length = nodeAt parsed.nodes nodes.length) :
    ∃ l, Ws lexer.rest l ∧
      ItemAt lexer.source object nodes' nodes.length l parsed.lexer.rest := by
  obtain ⟨node, hfound, hoff, hlen, htext⟩ := hparsed.key
  obtain ⟨l, hws, hnamed⟩ := named_of_parseKey object herr hoff hlen
  have hval := htexts (parseKey object lexer).2.1 nodes (parseKey object lexer).2.2.1
    (parseKey object lexer).2.2.2
  rw [hcall] at hval
  obtain ⟨n, hval⟩ := hval hok
  rw [← htext] at hnamed hval
  rw [hsrc] at hnamed hval
  refine ⟨l, hws, unlinked node, n, ?_, hnamed, hval⟩
  rw [hnode]
  exact congrArg (Option.map unlinked) hfound

/-- The byte of the token that closes a container, or of the comma in front of the next item. -/
theorem ws_separator {lexer : JsonLexer} {object : Bool} :
    ((next lexer).1.kind = closeKind object →
      Ws lexer.rest (closeByte object :: (next lexer).2.rest)) ∧
    ((next lexer).1.kind = .comma → Ws lexer.rest (44 :: (next lexer).2.rest)) := by
  refine ⟨fun h => ?_, fun h => ?_⟩
  · obtain ⟨l, hws, htoken⟩ := next_of_kind h (by cases object <;> nofun)
    generalize (next lexer).2.rest = behind at htoken ⊢
    cases object with
    | false =>
      cases htoken with
      | rightBracket => exact hws
    | true =>
      cases htoken with
      | rightBrace => exact hws
  · obtain ⟨l, hws, htoken⟩ := next_of_kind h nofun
    generalize (next lexer).2.rest = behind at htoken ⊢
    cases htoken with
    | comma => exact hws

/-- The token that opens a container. -/
def openKind (object : Bool) : JsonTokenKind := if object then .leftBrace else .leftBracket

theorem rest_open {lexer : JsonLexer} {object : Bool} (h : (next lexer).1.kind = openKind object) :
    (skipWhitespace lexer).rest = openByte object :: (next lexer).2.rest := by
  obtain ⟨l, hws, htoken⟩ := next_of_kind h (by cases object <;> nofun)
  rw [rest_skipWhitespace_of_ws hws htoken.ends]
  generalize (next lexer).2.rest = behind at htoken ⊢
  cases object with
  | false =>
    cases htoken with
    | leftBracket => rfl
  | true =>
    cases htoken with
    | leftBrace => rfl

/-- **A container whose items are read** stays open up to its closing bracket, and the children
that it gets stand for the items. -/
theorem parses_items (hparse : Parses parse) (htexts : Texts parse) (object : Bool)
    (hobject : container.kind = .object ↔ object = true) (rounds : Nat) :
    ∀ {lexer : JsonLexer} {nodes : List JsonNode} {previous : Int} {children : List Nat},
      Open before container lexer nodes previous children →
      (parseItems parse object before.length rounds lexer nodes previous).error = .none →
      ∃ lexer' nodes' previous' added,
        parseItems parse object before.length rounds lexer nodes previous =
          ⟨.none, lexer', nodes', before.length⟩ ∧ lexer'.source = lexer.source ∧
        Open before container lexer' nodes' previous' (children ++ added) ∧
        (∀ index < nodes.length, nodeAt nodes' index = nodeAt nodes index) ∧
        ItemsAt (ItemAt lexer.source object nodes') (closeByte object) added lexer.rest
          lexer'.rest := by
  induction rounds with
  | zero =>
    intro lexer nodes previous children _ herr
    cases herr
  | succ rounds ih =>
    intro lexer nodes previous children h herr
    have hkey := @parseKey_spec object lexer h.inside
    unfold parseItems at herr ⊢
    dsimp only at herr ⊢
    rcases Decidable.em ((parseKey object lexer).1 ≠ .none) with hfail | hfail
    · rw [if_pos hfail] at herr
      exact absurd herr hfail
    rw [if_neg hfail] at herr ⊢
    have hread := Classical.not_not.mp hfail
    obtain ⟨hsrc, hinside, hle, hat, hnonneg⟩ := hkey hread
    have hitem {parsed} {nodes' : List JsonNode} := @item_parsed nodes' parse htexts object lexer
      nodes hread hsrc parsed
    have hparsed := hparse _ nodes _ _ hinside (hsrc ▸ hat)
    generalize hcall : parse (parseKey object lexer).2.1 nodes (parseKey object lexer).2.2.1
      (parseKey object lexer).2.2.2 = parsed at herr hparsed ⊢
    rcases Decidable.em (parsed.error ≠ .none) with hfail | hfail
    · rw [if_pos hfail] at herr
      exact absurd herr hfail
    rw [if_neg hfail] at herr ⊢
    have hok := Classical.not_not.mp hfail
    have hparsed := hparsed hok
    obtain ⟨hattached, hlinked, hopen⟩ := h.attach hparsed hsrc hle (hnonneg.trans hobject.symm)
    obtain ⟨-, hinside'⟩ := hparsed.cursor
    rw [if_neg (by rw [hattached]; decide)] at herr ⊢
    -- the nodes that were there are the same but for their links
    have hkept (index : Nat) (hidx : index < nodes.length) :
        nodeAt (attachChild parsed.nodes before.length parsed.output previous).2 index =
          nodeAt nodes index :=
      (hlinked index).trans (congrArg (Option.map unlinked) (hparsed.kept index hidx))
    have hbehind := @next_inside parsed.lexer hinside'
    obtain ⟨hwsClose, hwsComma⟩ := @ws_separator parsed.lexer object
    rcases Decidable.em ((next parsed.lexer).1.kind = .error) with hkind | hkind
    · rw [if_pos hkind] at herr
      have hne := next_error hkind
      exact absurd herr hne
    rw [if_neg hkind] at herr ⊢
    rcases Decidable.em ((next parsed.lexer).1.kind = closeKind object) with hclose | hclose
    · rw [if_pos hclose]
      obtain ⟨hsrc', hinside'', hle'⟩ := hbehind hkind (by rw [hclose]; cases object <;> decide)
      have hsame := hsrc'.trans (hparsed.source.trans hsrc)
      obtain ⟨l, hws, hfirst⟩ := hitem hcall hok hparsed (hlinked nodes.length)
      exact ⟨_, _, _, _, rfl, hsame, hopen _ hsame hinside'' hle', hkept,
        .last hws hfirst (hwsClose hclose)⟩
    rw [if_neg hclose] at herr ⊢
    rcases Decidable.em ((next parsed.lexer).1.kind ≠ .comma) with hcomma | hcomma
    · rw [if_pos hcomma] at herr
      cases herr
    rw [if_neg hcomma] at herr ⊢
    have hcomma := Classical.not_not.mp hcomma
    obtain ⟨hsrc', hinside'', hle'⟩ := hbehind hkind (by rw [hcomma]; decide)
    have hsame := hsrc'.trans (hparsed.source.trans hsrc)
    have hgrown : nodes.length <
        (attachChild parsed.nodes before.length parsed.output previous).2.length :=
      ((hopen _ hsame hinside'' hle').forest.sorted.1 _
        (mem_append_right _ (mem_singleton_self _))).2
    obtain ⟨lexer', nodes', previous', added, heq, hsource'', hdone, hkept', hrest⟩ :=
      ih (hopen _ hsame hinside'' hle') herr
    obtain ⟨l, hws, hfirst⟩ := hitem hcall hok hparsed
      ((hkept' _ hgrown).trans (hlinked nodes.length))
    rw [hsame] at hrest
    refine ⟨lexer', nodes', previous', nodes.length :: added, heq, hsource''.trans hsame, ?_,
      fun index hidx => (hkept' index (Nat.lt_trans hidx hgrown)).trans (hkept index hidx),
      .more hws hfirst (hwsComma hcomma) hrest⟩
    rw [append_assoc] at hdone
    exact hdone

theorem parses_container (hparse : Parses parse) (htexts : Texts parse) (object : Bool)
    (hkind : container.kind = containerKind object) {lexer : JsonLexer}
    {nodes : List JsonNode} {text : List UInt8} (h : Open before container lexer nodes (-1) [])
    (htext : text = openByte object :: lexer.rest)
    (herr : (parseContainer parse object lexer nodes before.length).error = .none) :
    ∃ lexer' nodes' previous' children',
      parseContainer parse object lexer nodes before.length =
        ⟨.none, lexer', nodes', before.length⟩ ∧ lexer'.source = lexer.source ∧
      Open before container lexer' nodes' previous' children' ∧
      Composed lexer.source nodes' container.kind text children' := by
  have hobject : container.kind = .object ↔ object = true := by
    rw [hkind]
    cases object <;> decide
  unfold parseContainer at herr ⊢
  dsimp only at herr ⊢
  rcases Decidable.em ((next lexer).1.kind = .error) with herror | herror
  · rw [if_pos herror] at herr
    have hne := next_error herror
    exact absurd herr hne
  rw [if_neg herror] at herr ⊢
  rcases Decidable.em ((next lexer).1.kind = closeKind object) with hclose | hclose
  · rw [if_pos hclose]
    obtain ⟨hsrc, hinside, hle⟩ :=
      next_inside h.inside herror (by rw [hclose]; cases object <;> nofun)
    exact ⟨_, _, _, _, rfl, hsrc, h.move hsrc hinside hle,
      .empty hkind htext (ws_separator.1 hclose)⟩
  · rw [if_neg hclose] at herr ⊢
    obtain ⟨hle, hinside⟩ := skipWhitespace_inside h.inside
    have hopen : Open before container (skipWhitespace lexer) nodes (-1) [] :=
      h.move rfl hinside hle
    rw [goBack] at herr ⊢
    obtain ⟨lexer', nodes', previous', children', heq, hsource, hdone, -, hitems⟩ :=
      parses_items hparse htexts object hobject _ hopen herr
    exact ⟨lexer', nodes', previous', children', heq, hsource, hdone,
      .items hkind htext (hitems.ws (ws_rest lexer))⟩

theorem open_nodeOf (nodes : List JsonNode) {lexer : JsonLexer} (h : lexer.Inside)
    (hbegins : beginsValue (next lexer).1.kind = true)
    (hkey : KeyAt lexer.source lexer.cursor keyOffset keyLength) :
    Open nodes (nodeOf (next lexer).1 keyOffset keyLength) (next lexer).2
      (nodes ++ [nodeOf (next lexer).1 keyOffset keyLength]) (-1) [] := by
  obtain ⟨herr, hend⟩ := beginsValue_ne hbegins
  obtain ⟨-, hspans⟩ := next_spans h herr hend
  have hrelexed := relexed_nodeOf h hbegins hkey
  obtain ⟨-, -, -, hbehind, -⟩ := nodeOf_range hbegins hspans keyOffset keyLength
  have hlen : (nodes ++ [nodeOf (next lexer).1 keyOffset keyLength]).length =
      nodes.length + 1 := length_append
  have hnone {index : Nat} (hcount : nodes.length + 1 ≤ index) :
      (nodes ++ [nodeOf (next lexer).1 keyOffset keyLength])[index]? = none :=
    List.getElem?_eq_none (hlen ▸ hcount)
  have hempty {node : JsonNode} {index : Nat} (hcount : nodes.length + 1 ≤ index)
      (hnode : node ∈ (nodes ++ [nodeOf (next lexer).1 keyOffset keyLength])[index]?) : False := by
    rw [hnone hcount] at hnode
    nomatch hnode
  refine ⟨hspans.source, fun index hidx => List.getElem?_append_left hidx, by omega, ?_, ?_,
    rfl, nofun, ?_, ⟨?_, ?_, ?_⟩, hbehind⟩
  · rw [List.getElem?_concat_length]
    unfold nodeOf
    split <;> rfl
  · rw [hlen]
    exact .nil (by decide)
  · rw [next_source]
    exact hrelexed
  · exact fun index hcount node hnode => absurd hnode (hempty hcount)
  · exact fun index hcount node hnode => absurd hnode (hempty hcount)
  · exact fun index index' hcount hlt node hnode => absurd hnode (hempty hcount)

/-- A token that begins a value, with the items it contains, is a tree. -/
theorem Open.parsed {nodes : List JsonNode} {lexer behind : JsonLexer} {previous : Int}
    {children : List Nat}
    (h : Open nodes (nodeOf (next lexer).1 keyOffset keyLength) behind nodes' previous children)
    (hinside : lexer.Inside) (hbegins : beginsValue (next lexer).1.kind = true)
    (hsrc : behind.source = lexer.source)
    (hcomposed : Composed lexer.source nodes' (nodeOf (next lexer).1 keyOffset keyLength).kind
      (skipWhitespace lexer).rest children) :
    ParsedTo lexer nodes keyOffset keyLength ⟨.none, behind, nodes', nodes.length⟩ := by
  obtain ⟨herr, hend⟩ := beginsValue_ne hbegins
  obtain ⟨hle, hspans⟩ := next_spans hinside herr hend
  obtain ⟨hplace, -, hlow, -⟩ := nodeOf_range hbegins hspans keyOffset keyLength
  have hnext : (nodeOf (next lexer).1 keyOffset keyLength).nextSibling = -1 := by
    unfold nodeOf
    split <;> rfl
  have hstart : (lexer.cursor : Int) ≤ (nodeOf (next lexer).1 keyOffset keyLength).valueOffset := by
    omega
  have htext : textAt lexer.source (nodeOf (next lexer).1 keyOffset keyLength) =
      (skipWhitespace lexer).rest := by
    unfold textAt
    rw [hplace, Int.toNat_natCast, drop_offset]
  have hparsed := h.close hnext hsrc.symm hstart htext hcomposed
  obtain ⟨hkeyOffset, hkeyLength⟩ := nodeOf_key (next lexer).1 keyOffset keyLength
  rw [hkeyOffset, hkeyLength] at hparsed
  exact hparsed

/-- Which token a value begins with: the node of a scalar is all of it, and a container goes on
behind its bracket. -/
theorem parseValue_cases (parse : Parser) (lexer : JsonLexer) (nodes : List JsonNode)
    (keyOffset keyLength : Int) :
    (parseValue parse lexer nodes keyOffset keyLength).error ≠ .none ∨
    beginsValue (next lexer).1.kind = true ∧
      (((nodeOf (next lexer).1 keyOffset keyLength).kind ≠ .object ∧
          (nodeOf (next lexer).1 keyOffset keyLength).kind ≠ .array) ∧
        parseValue parse lexer nodes keyOffset keyLength = ⟨.none, (next lexer).2,
          nodes ++ [nodeOf (next lexer).1 keyOffset keyLength], nodes.length⟩ ∨
      ∃ object : Bool,
        (nodeOf (next lexer).1 keyOffset keyLength).kind = containerKind object ∧
        (skipWhitespace lexer).rest = openByte object :: (next lexer).2.rest ∧
        parseValue parse lexer nodes keyOffset keyLength =
          parseContainer parse object (next lexer).2
            (nodes ++ [nodeOf (next lexer).1 keyOffset keyLength]) nodes.length) := by
  have htoken : (next lexer).1.kind = .error → (next lexer).1.error ≠ .none := next_error
  have hopen (object : Bool) (h : (next lexer).1.kind = openKind object) := rest_open h
  unfold parseValue
  generalize next lexer = result at htoken hopen ⊢
  obtain ⟨⟨kind, lexeme, offset, error⟩, behind⟩ := result
  cases kind with
  | error => exact .inl (htoken rfl)
  | endOfText => exact .inl nofun
  | leftBrace => exact .inr ⟨rfl, .inr ⟨true, rfl, hopen true rfl, rfl⟩⟩
  | leftBracket => exact .inr ⟨rfl, .inr ⟨false, rfl, hopen false rfl, rfl⟩⟩
  | string | number | true | false | null => exact .inr ⟨rfl, .inl ⟨⟨nofun, nofun⟩, rfl⟩⟩
  | rightBrace | rightBracket | colon | comma => exact .inl nofun

/-- **One level parses if the level below does.** -/
theorem parses_parseValue (hparse : Parses parse) (htexts : Texts parse) :
    Parses (parseValue parse) := by
  intro lexer nodes keyOffset keyLength hinside hkey herr
  obtain hfail | ⟨hbegins, hval⟩ := parseValue_cases parse lexer nodes keyOffset keyLength
  · exact absurd herr hfail
  have hsrc := next_source lexer
  have hopen := open_nodeOf nodes hinside hbegins hkey
  obtain ⟨hscalar, hval⟩ | ⟨object, hkind, htext, hitems⟩ := hval
  · rw [hval]
    exact hopen.parsed hinside hbegins hsrc (.scalar hscalar.1 hscalar.2)
  rw [hitems] at herr ⊢
  obtain ⟨behind, nodes', previous, children, heq, hsrc', hdone, hcomposed⟩ :=
    parses_container hparse htexts object hkind hopen htext herr
  rw [heq]
  rw [hsrc] at hsrc' hcomposed
  exact hdone.parsed hinside hbegins hsrc' hcomposed

theorem parses_parseValueInner (levels : Nat) : Parses (parseValueInner levels) := by
  induction levels with
  | zero =>
    intro lexer nodes keyOffset keyLength _ _ herr
    nomatch herr
  | succ levels ih => exact parses_parseValue ih (Texts.parseValueInner levels)

end

end Raz.Json
