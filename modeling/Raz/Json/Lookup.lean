import Raz.Json.ParsedTree
import Raz.Path.Output

/-!
# Members of a parsed document

Translation of `object_get` with the reading of keys. The query is a list of bytes, and escaped keys
are decoded to the scratch string.

An escaped key for which the scratch string gets no room is passed over: `object_get` has no other
answer for it than that there is no such member.

Result: `documents_exact`: what the parser leaves is the tree of the text, and what is found in it.
-/

namespace Raz.Json

open Memory Raz.Path Raz.Path.Storage Grammar ArenaTree List

/-! ## Keys -/

/-- The range of the key of a node, empty if there is none. -/
def keyView (document : JsonDocument) (index : Int) : BytesView :=
  match elementAddress document.nodes index with
  | none => ⟨0, 0⟩
  | some address =>
      match document.nodes[address]? with
      | none => ⟨0, 0⟩
      | some node =>
          if node.keyOffset < 0 then ⟨0, 0⟩ else ⟨node.keyOffset.toNat, node.keyLength.toNat⟩

/-- The bytes of a view. -/
def viewBytes (source : List UInt8) (view : BytesView) : List UInt8 :=
  (source.drop view.start).take view.length

/-- `alloc::string::equals_bytes`. -/
def equalsBytes (memory : Bytes) (value : Storage) (data : List UInt8) : Bool :=
  data.length = value.length && bytes memory value.asView = data

/-- Whether a raw key is the query: one without a backslash is compared as it is, and another one is
decoded first. -/
def compareKey (allocator : Allocator) (base : Nat) (source : List UInt8) (raw : BytesView)
    (key : List UInt8) (memory : Bytes) (scratch : Storage) : Outcome :=
  let escaped : Bool := 92 ∈ viewBytes source raw
  if escaped = false then
    (raw.length = key.length && viewBytes source raw = key, memory, scratch)
  else
    let (memory, scratch) := clear memory scratch
    let token : JsonToken := ⟨.string, raw, raw.start, .none⟩
    let (decoded, memory, scratch) := decodeString allocator memory base token scratch
    (decoded && equalsBytes memory scratch key, memory, scratch)

/-- The loop of `object_get` over the members. -/
def getLoop (allocator : Allocator) (base : Nat) (document : JsonDocument) (key : List UInt8) :
    Nat → Int → Bytes → Storage → Int × Bytes × Storage
  | 0, _, memory, scratch => (-1, memory, scratch)
  | rounds + 1, child, memory, scratch =>
      if child < 0 then (-1, memory, scratch)
      else
        match elementAddress document.nodes child with
        | none => (-1, memory, scratch)
        | some address =>
            let (found, memory, scratch) := compareKey allocator base document.bytes
              (keyView document child) key memory scratch
            if found then (child, memory, scratch)
            else
              getLoop allocator base document key rounds (nextOf document.nodes address) memory
                scratch

/-- `object_get` with the bytes of the document at `base`. -/
def objectGet (allocator : Allocator) (base : Nat) (document : JsonDocument) (objectIndex : Int)
    (key : List UInt8) (memory : Bytes) (scratch : Storage) : Int × Bytes × Storage :=
  match elementAddress document.nodes objectIndex with
  | none => (-1, memory, scratch)
  | some address =>
      match document.nodes[address]? with
      | none => (-1, memory, scratch)
      | some node =>
          if node.kind ≠ .object then (-1, memory, scratch)
          else
            getLoop allocator base document key document.nodes.length node.firstChild memory scratch

/-! ## What is found -/

/-- The key of a node is decoded to a text. -/
def HasKey (source : List UInt8) (nodes : List JsonNode) (text : List UInt8) (index : Nat) : Prop :=
  ∃ node, nodes[index]? = some node ∧ 0 ≤ node.keyOffset ∧
    Spells (viewBytes source ⟨node.keyOffset.toNat, node.keyLength.toNat⟩) text

/-- There is no room to decode the key of a node, which is written with an escape: the scratch
string has less, and a block for it is refused. -/
def Short (grants : Nat → Bool) (source : List UInt8) (nodes : List JsonNode)
    (capacity index : Nat) : Prop :=
  ∃ node, nodes[index]? = some node ∧
    92 ∈ viewBytes source ⟨node.keyOffset.toNat, node.keyLength.toNat⟩ ∧
    grows grants capacity node.keyLength.toNat = false

/-- The first of the children that is good and not passed over for want of room, and no other one; a
negative result if there is none. The room is what the scratch string has when the child is met: it
only grows. -/
inductive First (good : Nat → Prop) (short : Nat → Nat → Prop) : Nat → List Nat → Int → Prop
  | none {capacity : Nat} : First good short capacity [] (-1)
  | here {capacity child : Nat} {rest : List Nat} : good child → ¬ short capacity child →
      First good short capacity (child :: rest) child
  | behind {capacity capacity' child : Nat} {rest : List Nat} {result : Int} :
      ¬ good child ∨ short capacity child → capacity ≤ capacity' →
      First good short capacity' rest result → First good short capacity (child :: rest) result

theorem viewBytes_eq {lead content trail : List UInt8} :
    viewBytes (lead ++ content ++ trail) ⟨lead.length, content.length⟩ = content := by
  unfold viewBytes
  rw [append_assoc, drop_left, take_left]

theorem equalsBytes_eq {memory : Bytes} {storage : Storage} {text part key : List UInt8}
    {source : Nat} (h : Ready memory storage text source part) :
    equalsBytes memory storage key = true ↔ text = key := by
  have hbytes : bytes memory storage.asView = text := by
    unfold asView
    rw [h.length]
    refine bytes_eq h.holds ?_
    rcases Decidable.em (storage.data = 0) with hnull | hdata
    · have hfits := h.fits
      rw [h.null hnull] at hfits
      exact .inl (eq_nil_of_length_eq_zero (Nat.le_zero.mp hfits))
    · exact .inr hdata
  unfold equalsBytes
  rw [hbytes, h.length, Bool.and_eq_true, decide_eq_true_iff, decide_eq_true_iff]
  exact ⟨And.right, fun heq => ⟨congrArg List.length heq.symm, heq⟩⟩

section

variable {allocator : Allocator} {grants : Nat → Bool} {memory : Bytes} {scratch : Storage}
  {base : Nat} {source lead content trail t key : List UInt8}

/-- **A key is compared** by what it is decoded to, if it can be. -/
theorem compareKey_spec {text : List UInt8}
    (h : Writable allocator grants memory scratch text base source)
    (hlimit : source.length ≤ 9223372036854775807)
    (hsrc : source = lead ++ content ++ trail) (ht : Spells content t) :
    ((compareKey allocator base source ⟨lead.length, content.length⟩ key memory scratch).1 = true ↔
      t = key ∧ ¬ (92 ∈ content ∧ grows grants scratch.capacity content.length = false)) ∧
    scratch.capacity ≤ (compareKey allocator base source ⟨lead.length, content.length⟩ key memory
      scratch).2.2.capacity ∧
    ∃ text', Writable allocator grants
      (compareKey allocator base source ⟨lead.length, content.length⟩ key memory scratch).2.1
      (compareKey allocator base source ⟨lead.length, content.length⟩ key memory scratch).2.2 text'
      base source := by
  have hview : viewBytes source ⟨lead.length, content.length⟩ = content := by
    rw [hsrc, viewBytes_eq]
  unfold compareKey
  rw [hview]
  dsimp only
  rcases Decidable.em (92 ∈ content) with hescaped | hplain
  · rw [if_neg (by rw [decide_eq_true hescaped]; nofun)]
    have hdata : content = [] ∨ base ≠ 0 := h.data.imp_left fun hnil => by
        rw [hnil] at hsrc
        exact (append_eq_nil_iff.mp (append_eq_nil_iff.mp hsrc.symm).1).2
    have hle : content.length ≤ source.length := by
      rw [hsrc, length_append, length_append]
      omega
    generalize htoken : JsonToken.mk .string ⟨lead.length, content.length⟩ lead.length .none = token
    have hkind : token.kind = .string := htoken ▸ rfl
    have hlexeme : token.lexeme = ⟨lead.length, content.length⟩ := htoken ▸ rfl
    have hspec := decodeString_spec h.ready.clear h.allocator h.limit hdata hsrc hlexeme
    have hrefused (hnone : grows grants scratch.capacity content.length = false) :
        (decodeString allocator (clear memory scratch).1 base token (clear memory scratch).2).1 =
          false := by
      refine decodeString_refused h.ready.clear h.allocator ?_ ?_
      · rw [hlexeme, length_nil, Nat.zero_add]
        exact Nat.le_trans hle hlimit
      · rw [hlexeme, length_nil, Nat.zero_add]
        exact hnone
    generalize decodeString allocator (clear memory scratch).1 base token (clear memory scratch).2 =
      outcome at hspec hrefused ⊢
    obtain ⟨hgrown, hback, hdone⟩ := hspec
    obtain ⟨hready, hroomy⟩ := hdone t hkind ht
    rw [length_nil, Nat.zero_add] at hroomy
    have hcap : (clear memory scratch).2.capacity = scratch.capacity := rfl
    rw [hcap] at hroomy
    obtain ⟨decoded, memory', scratch'⟩ := outcome
    refine ⟨?_, hgrown.room, ?_⟩
    · cases hdecoded : decoded with
      | false =>
        have hnone : grows grants scratch.capacity content.length = false := by
          rw [Bool.eq_false_iff]
          intro hgrows
          exact nomatch hdecoded.symm.trans (hroomy hgrows)
        exact iff_of_false nofun fun hfound => hfound.2 ⟨hescaped, hnone⟩
      | true =>
        have hgranted : ¬ grows grants scratch.capacity content.length = false := fun hnone =>
          nomatch hdecoded.symm.trans (hrefused hnone)
        exact (equalsBytes_eq (hready hdecoded)).trans
          ⟨fun heq => ⟨heq, fun hnone => hgranted hnone.2⟩, And.left⟩
    · obtain ⟨written, hready'⟩ := hgrown.ready
      exact ⟨_, hready', h.allocator, hgrown.limit, h.data⟩
  · rw [if_pos (by rw [decide_eq_false hplain])]
    have hself : Spells (content ++ []) (content ++ []) := by
      refine Spells.append_plain (fun b hb => ?_) .nil
      rintro rfl
      exact hplain hb
    rw [append_nil] at hself
    refine ⟨?_, le_rfl, _, h⟩
    rw [ht.unique hself, Bool.and_eq_true, decide_eq_true_iff, decide_eq_true_iff]
    exact ⟨fun heq => ⟨heq.2, fun hnone => hplain hnone.1⟩,
      fun heq => ⟨congrArg List.length heq.1, heq.1⟩⟩

theorem KeyAt.spelled {bound : Nat} {keyOffset keyLength : Int}
    (h : KeyAt source bound keyOffset keyLength) (hkey : 0 ≤ keyOffset) :
    ∃ lead content trail t, source = lead ++ content ++ trail ∧ keyOffset = lead.length ∧
      keyLength = content.length ∧ Spells content t := by
  obtain ⟨hnone, -⟩ | ⟨start, length, hoff, hlen, -, -, hkind, hlexeme, -, -⟩ := h
  · omega
  obtain ⟨lead, content, trail, hchars, hsrc, htoken⟩ := next_string_sound hkind
  obtain ⟨rfl, rfl⟩ := BytesView.mk.inj (hlexeme.symm.trans htoken)
  obtain ⟨t, hspells, -⟩ := Chars.spells hchars
  exact ⟨lead, content, trail, t, hsrc, hoff, hlen, hspells⟩

variable {document : JsonDocument}

/-- **The lookup finds the first member** whose key is decoded to the query. -/
theorem getLoop_finds (hsrc : document.bytes = source)
    (hlimit : source.length ≤ 9223372036854775807) {children : List Nat} :
    ∀ {link : Int} {lo hi rounds : Nat} {memory : Bytes} {scratch : Storage} {text : List UInt8},
      Forest source document.nodes link lo hi children →
      (∀ child ∈ children, ∃ node, document.nodes[child]? = some node ∧ Relexed source node ∧
        0 ≤ node.keyOffset) →
      children.length ≤ rounds → Writable allocator grants memory scratch text base source →
      First (HasKey source document.nodes key) (Short grants source document.nodes)
        scratch.capacity children
        (getLoop allocator base document key rounds link memory scratch).1 := by
  induction children with
  | nil =>
    intro link lo hi rounds memory scratch text hforest _ _ _
    cases hforest with
    | nil hlink =>
      cases rounds with
      | zero => exact .none
      | succ rounds =>
        rw [getLoop, if_pos hlink]
        exact .none
  | cons child rest ih =>
    intro link lo hi rounds memory scratch text hforest hchildren hrounds h
    cases hforest with
    | cons hgood hbelow hrest =>
      obtain ⟨rounds, rfl⟩ := Nat.exists_eq_succ_of_ne_zero
        (Nat.ne_of_gt (Nat.lt_of_lt_of_le (Nat.succ_pos _) hrounds))
      obtain ⟨⟨node, hnode, hrelexed, hkey⟩, hchildren⟩ := forall_mem_cons.mp hchildren
      obtain ⟨bound, -, hat, -⟩ := hrelexed.key
      obtain ⟨lead, content, trail, t, hsplit, hoff, hlen, ht⟩ := hat.spelled hkey
      have hlt := (List.getElem?_eq_some_iff.mp hnode).1
      have haddr := @elementAddress_of_lt document.nodes child (Int.natCast_nonneg _)
        (Int.ofNat_lt.mpr hlt)
      rw [Int.toNat_natCast] at haddr
      have hview : keyView document child = ⟨lead.length, content.length⟩ := by
        unfold keyView
        rw [haddr]
        dsimp only
        rw [hnode]
        dsimp only
        rw [if_neg (by omega), hoff, hlen, Int.toNat_natCast, Int.toNat_natCast]
      have hcontent : viewBytes source ⟨node.keyOffset.toNat, node.keyLength.toNat⟩ = content := by
        rw [hoff, hlen, Int.toNat_natCast, Int.toNat_natCast, hsplit, viewBytes_eq]
      have hhas : HasKey source document.nodes key child ↔ t = key := by
        refine ⟨?_, fun heq => ⟨node, hnode, hkey, hcontent.symm ▸ heq ▸ ht⟩⟩
        rintro ⟨node', hnode', -, hspells⟩
        obtain rfl := Option.some.inj (hnode.symm.trans hnode')
        rw [hcontent] at hspells
        exact ht.unique hspells
      have hshort : Short grants source document.nodes scratch.capacity child ↔
          92 ∈ content ∧ grows grants scratch.capacity content.length = false := by
        have hlength : node.keyLength.toNat = content.length := by
          rw [hlen, Int.toNat_natCast]
        refine ⟨?_, fun hnone => ⟨node, hnode, hcontent.symm ▸ hnone.1, hlength.symm ▸ hnone.2⟩⟩
        rintro ⟨node', hnode', hescaped, hnone⟩
        obtain rfl := Option.some.inj (hnode.symm.trans hnode')
        rw [hcontent] at hescaped
        rw [hlength] at hnone
        exact ⟨hescaped, hnone⟩
      obtain ⟨hfound, hcap, text', hscratch⟩ := @compareKey_spec allocator grants memory scratch
        base source lead content trail t key text h hlimit hsplit ht
      rw [getLoop, if_neg (by omega), haddr, hsrc, hview]
      dsimp only
      generalize compareKey allocator base source ⟨lead.length, content.length⟩ key memory scratch =
        outcome at hfound hcap hscratch ⊢
      rw [← hhas, ← hshort] at hfound
      rcases Decidable.em (outcome.1 = true) with hhere | hbehind
      · rw [if_pos hhere]
        obtain ⟨hgood, hroom⟩ := hfound.mp hhere
        exact .here hgood hroom
      · rw [if_neg hbehind]
        refine .behind ?_ hcap (ih hrest hchildren (Nat.le_of_succ_le_succ hrounds) hscratch)
        rw [hfound, not_and, not_not] at hbehind
        exact (Classical.em _).symm.imp_right hbehind

/-! ## Parsed documents -/

/-- The children of a node, from its first one on. -/
def childrenOf (nodes : List JsonNode) (index : Nat) : List Nat :=
  siblings (nextOf nodes) nodes.length (firstOf nodes index)

/-- The nodes are the tree of a text that is met in the order of the arena, which is the order of
the source, and every node is read again from the source. The root stands for the value of the text,
and the children of a container for its items. -/
structure Tree (source : List UInt8) (nodes : List JsonNode) (root : Int) : Prop where
  rooted : root = 0 ∧ ∃ node n behind, nodes[0]? = some node ∧ Ws source (textAt source node) ∧
    Value n (textAt source node) behind ∧ Ws behind []
  walk : walk (firstOf nodes) (nextOf nodes) nodes.length root = List.range nodes.length
  relexed : ∀ node ∈ nodes, Relexed source node
  counted : ∀ index < nodes.length, Counted source nodes index (childrenOf nodes index)
  behind : ∀ index < nodes.length, (childrenOf nodes index).Pairwise (· < ·) ∧
    ∀ child ∈ childrenOf nodes index, index < child ∧ child < nodes.length
  sorted : nodes.Pairwise fun node node' => node.valueOffset < node'.valueOffset

/-- In an object the first member with the key is found, and nothing in what is no object. The
length of a document is an `i64`. -/
def LooksUp (document : JsonDocument) : Prop :=
  ∀ (allocator : Allocator) (grants : Nat → Bool) (memory : Bytes) (scratch : Storage)
    (text : List UInt8) (base : Nat) (objectIndex : Int) (key : List UInt8),
    Writable allocator grants memory scratch text base document.bytes →
    document.bytes.length ≤ 9223372036854775807 →
    (∀ (index : Nat) (node : JsonNode), objectIndex = index → document.nodes[index]? = some node →
      node.kind = .object →
      First (HasKey document.bytes document.nodes key)
        (Short grants document.bytes document.nodes) scratch.capacity
        (childrenOf document.nodes index)
        (objectGet allocator base document objectIndex key memory scratch).1) ∧
    ((∀ (index : Nat) (node : JsonNode), objectIndex = index →
        document.nodes[index]? = some node → node.kind ≠ .object) →
      (objectGet allocator base document objectIndex key memory scratch).1 = -1)

/-- What the parser leaves for the data. -/
def Exact (data : List UInt8) (document : JsonDocument) : Prop :=
  document.bytes = data ∧ Tree data document.nodes document.root ∧ LooksUp document

theorem forest_siblings {nodes : List JsonNode} {link : Int} {lo hi : Nat} {children : List Nat}
    (h : Forest source nodes link lo hi children) (hle : hi ≤ nodes.length) :
    siblings (nextOf nodes) nodes.length link = children :=
  h.siblings_eq (Nat.le_trans (Nat.sub_le _ _) hle)

theorem forest_childrenOf {nodes : List JsonNode} (h : Forest source nodes 0 0 nodes.length [0])
    {index : Nat} (hidx : index < nodes.length) :
    ∃ mid ≤ nodes.length, Counted source nodes index (childrenOf nodes index) ∧
      Forest source nodes (firstOf nodes index) (index + 1) mid (childrenOf nodes index) := by
  obtain ⟨mid, children, hmid, hcounted, hbelow⟩ := h.at (Nat.zero_le index) hidx
  have hchildren : childrenOf nodes index = children := forest_siblings hbelow hmid
  rw [hchildren]
  exact ⟨mid, hmid, hcounted, hbelow⟩

theorem tree_of_forest {nodes : List JsonNode} {low high : Nat}
    (h : Forest source nodes 0 0 nodes.length [0]) (hordered : Ordered source nodes 0 low high)
    (hroot : ∃ node n behind, nodes[0]? = some node ∧ Ws source (textAt source node) ∧
      Value n (textAt source node) behind ∧ Ws behind []) :
    Tree source nodes 0 := by
  refine ⟨⟨rfl, hroot⟩, ?_, fun node hnode => ?_, fun index hidx => ?_, fun index hidx => ?_, ?_⟩
  · rw [range_eq_range']
    exact h.walk_eq le_rfl
  · obtain ⟨index, hidx⟩ := mem_iff_getElem?.mp hnode
    exact hordered.relexed index (Nat.zero_le _) node hidx
  · obtain ⟨-, -, hcounted, -⟩ := forest_childrenOf h hidx
    exact hcounted
  · obtain ⟨mid, hmid, -, hbelow⟩ := forest_childrenOf h hidx
    obtain ⟨hrange, hpairwise⟩ := hbelow.sorted
    refine ⟨hpairwise, fun child hchild => ?_⟩
    obtain ⟨hlo, hhi⟩ := hrange child hchild
    exact ⟨hlo, Nat.lt_of_lt_of_le hhi hmid⟩
  · refine pairwise_iff_getElem.mpr fun index index' hidx hidx' hlt => ?_
    exact hordered.sorted index index' (Nat.zero_le _) hlt _ (List.getElem?_eq_getElem hidx) _
      (List.getElem?_eq_getElem hidx')

theorem looksUp_of_forest (hbytes : document.bytes = source)
    (h : Forest source document.nodes 0 0 document.nodes.length [0])
    (hrelexed : ∀ node ∈ document.nodes, Relexed source node) : LooksUp document := by
  intro allocator grants memory scratch text base objectIndex key hscratch hlimit
  rw [hbytes] at hscratch hlimit ⊢
  unfold objectGet
  refine ⟨?_, fun hnone => ?_⟩
  · rintro index node rfl hnode hkind
    have hidx := (List.getElem?_eq_some_iff.mp hnode).1
    have haddr := @elementAddress_of_lt document.nodes index (Int.natCast_nonneg _)
      (Int.ofNat_lt.mpr hidx)
    rw [Int.toNat_natCast] at haddr
    rw [haddr]
    dsimp only
    rw [hnode]
    dsimp only
    rw [if_neg (not_not_intro hkind), ← firstOf_some hnode]
    obtain ⟨mid, hmid, ⟨node', hnode', -, hkeys, -⟩, hbelow⟩ := forest_childrenOf h hidx
    obtain rfl := Option.some.inj (hnode.symm.trans hnode')
    refine getLoop_finds hbytes hlimit hbelow (fun child hchild => ?_) ?_ hscratch
    · obtain ⟨below, hchild, hkey⟩ := hkeys child hchild
      exact ⟨below, hchild, hrelexed below (mem_of_getElem? hchild), hkey.mpr hkind⟩
    · have hlen := hbelow.length_le
      omega
  · split
    · rfl
    rename_i address haddr
    split
    · rfl
    rename_i node hnode
    unfold elementAddress at haddr
    split at haddr
    · nomatch haddr
    cases haddr
    rw [if_pos (hnone _ node (by omega) hnode)]

theorem exact_of_parsed {data : List UInt8} {levels : Nat}
    (h : (parseValueInner levels (lexer data) [] (-1) 0).error = .none)
    (hend : (next (parseValueInner levels (lexer data) [] (-1) 0).lexer).1.kind = .endOfText)
    (hbytes : document.bytes = data)
    (hnodes : document.nodes = (parseValueInner levels (lexer data) [] (-1) 0).nodes)
    (hroot : document.root = (parseValueInner levels (lexer data) [] (-1) 0).output) :
    Exact data document := by
  have hparsed := parses_parseValueInner levels (lexer data) [] (-1) 0 (Nat.zero_le _)
    (.inl ⟨rfl, rfl⟩) h
  have hforest : Forest data document.nodes 0 0 document.nodes.length [0] := hnodes ▸ hparsed.tree
  have hordered := hparsed.ordered
  rw [← hnodes] at hordered
  have htext : ∃ node n behind, document.nodes[0]? = some node ∧ Ws data (textAt data node) ∧
      Value n (textAt data node) behind ∧ Ws behind [] := by
    obtain ⟨node, hnode, -, -, htext⟩ := hparsed.key
    obtain ⟨n, hval⟩ := Texts.parseValueInner levels _ _ _ _ h
    obtain ⟨l, hws, htoken⟩ := next_of_kind hend nofun
    have hlead := ws_rest (lexer data)
    rw [← htext] at hval hlead
    refine ⟨node, n, _, hnodes ▸ hnode, hlead, hval, ?_⟩
    generalize (next (parseValueInner levels (lexer data) [] (-1) 0).lexer).2.rest = behind
      at htoken
    cases htoken with
    | endOfText => exact hws
  have htree := tree_of_forest hforest hordered htext
  refine ⟨hbytes, ?_, looksUp_of_forest hbytes hforest htree.relexed⟩
  rw [hroot, hparsed.output]
  exact htree

/-- No block is given. -/
def refuses : Allocator := ⟨fun _ => none, fun _ _ _ => none⟩

/-- The bytes at address 1. -/
def standing (data : List UInt8) : Bytes := fun address => data.getD (address - 1) 0

end

end Raz.Json
