import Raz.Json.TokenSpans

/-!
# The texts that nodes stand for

A node of the arena says where the text of its value begins, and a member where its key is. With the
children of a node this is a reading of the text: between the brackets of a container stand the
values of its children, in their order and with their keys, and nothing else.

Result: `Texts.parseValueInner`: a value that is parsed is one of the grammar.
-/

namespace Raz.Json

open Grammar List

variable {source l m r : List UInt8} {nodes nodes' : List JsonNode} {children : List Nat}

/-! ## Places -/

/-- Where the token of a node stands: the range of a string is without its quotes. -/
def placeOf (node : JsonNode) : Int :=
  if node.kind = .string then node.valueOffset - 1 else node.valueOffset

def unlinked (node : JsonNode) : JsonNode :=
  { node with firstChild := -1, nextSibling := -1, childCount := 0 }

/-- A node without its links, which the parser still sets while it reads on. -/
def nodeAt (nodes : List JsonNode) (index : Nat) : Option JsonNode := nodes[index]?.map unlinked

/-- The text from the place of a node on. -/
def textAt (source : List UInt8) (node : JsonNode) : List UInt8 :=
  source.drop (placeOf node).toNat

/-! ## Items -/

/-- What stands in front of the value of a member: the string of its key, which is the range of the
node, and a colon. Nothing does in an array. -/
def Named (source : List UInt8) (object : Bool) (node : JsonNode) (l m : List UInt8) : Prop :=
  if object then ∃ key k k', l = 34 :: (key ++ 34 :: k) ∧ Chars key ∧ Ws k (58 :: k') ∧ Ws k' m ∧
    source.drop node.keyOffset.toNat = key ++ 34 :: k ∧ node.keyLength = key.length
  else l = m

/-- The item of a container that a child stands for. -/
def ItemAt (source : List UInt8) (object : Bool) (nodes : List JsonNode) (child : Nat)
    (l r : List UInt8) : Prop :=
  ∃ node n, nodeAt nodes child = some node ∧ Named source object node l (textAt source node) ∧
    Value n (textAt source node) r

/-- The items of a container up to the byte that closes it, one for each child. -/
inductive ItemsAt (item : Nat → List UInt8 → List UInt8 → Prop) (close : UInt8) :
    List Nat → List UInt8 → List UInt8 → Prop
  | last {child : Nat} {l m k r : List UInt8} : Ws l m → item child m k → Ws k (close :: r) →
      ItemsAt item close [child] l r
  | more {child : Nat} {rest : List Nat} {l m k k' r : List UInt8} : Ws l m → item child m k →
      Ws k (44 :: k') → ItemsAt item close rest k' r → ItemsAt item close (child :: rest) l r

def containerKind (object : Bool) : JsonValueKind := if object then .object else .array

def openByte (object : Bool) : UInt8 := if object then 123 else 91

def closeByte (object : Bool) : UInt8 := if object then 125 else 93

/-- The value at the place of a node is made of the values of its children. -/
inductive Composed (source : List UInt8) (nodes : List JsonNode) (kind : JsonValueKind)
    (text : List UInt8) : List Nat → Prop
  | scalar : kind ≠ .object → kind ≠ .array → Composed source nodes kind text []
  | empty {object : Bool} {l r : List UInt8} : kind = containerKind object →
      text = openByte object :: l → Ws l (closeByte object :: r) →
      Composed source nodes kind text []
  | items {object : Bool} {children : List Nat} {l r : List UInt8} :
      kind = containerKind object → text = openByte object :: l →
      ItemsAt (ItemAt source object nodes) (closeByte object) children l r →
      Composed source nodes kind text children

theorem ItemsAt.ws {item : Nat → List UInt8 → List UInt8 → Prop} {close : UInt8} (hws : Ws l m)
    (h : ItemsAt item close children m r) : ItemsAt item close children l r := by
  cases h with
  | last hws' hitem hclose => exact .last (Ws.trans hws hws') hitem hclose
  | more hws' hitem hcomma hrest => exact .more (Ws.trans hws hws') hitem hcomma hrest

/-! ## Links do not matter -/

theorem ItemsAt.mono {item item' : Nat → List UInt8 → List UInt8 → Prop} {close : UInt8}
    (h : ItemsAt item close children l r)
    (himp : ∀ child ∈ children, ∀ l r, item child l r → item' child l r) :
    ItemsAt item' close children l r := by
  induction h with
  | last hws hitem hclose => exact .last hws (himp _ mem_cons_self _ _ hitem) hclose
  | more hws hitem hcomma _ ih =>
    obtain ⟨hfirst, hrest⟩ := forall_mem_cons.mp himp
    exact .more hws (hfirst _ _ hitem) hcomma (ih hrest)

section

variable (h : ∀ child ∈ children, nodeAt nodes' child = nodeAt nodes child)

include h

theorem ItemsAt.congr {object : Bool} {close : UInt8}
    (hitems : ItemsAt (ItemAt source object nodes) close children l r) :
    ItemsAt (ItemAt source object nodes') close children l r := by
  refine hitems.mono fun child hchild l r => ?_
  rintro ⟨node, n, hnode, hitem⟩
  exact ⟨node, n, (h child hchild).trans hnode, hitem⟩

theorem Composed.congr {kind : JsonValueKind} {text : List UInt8}
    (hcomposed : Composed source nodes kind text children) :
    Composed source nodes' kind text children := by
  cases hcomposed with
  | scalar hobject harray => exact .scalar hobject harray
  | empty hkind htext hclose => exact .empty hkind htext hclose
  | items hkind htext hitems => exact .items hkind htext (hitems.congr h)

end

/-! ## Values that are parsed -/

/-- What the parser takes for a value is one. -/
def Texts (parse : Parser) : Prop :=
  ∀ lexer nodes keyOffset keyLength, (parse lexer nodes keyOffset keyLength).error = .none →
    ∃ n, Value n (skipWhitespace lexer).rest (parse lexer nodes keyOffset keyLength).lexer.rest

theorem Texts.parseValueInner (levels : Nat) : Texts (parseValueInner levels) := by
  intro lexer nodes keyOffset keyLength herr
  have hagree := agree_parseValueInner levels lexer nodes keyOffset keyLength
  cases levels with
  | zero => nomatch herr
  | succ n =>
    have hsound := (decides_skipValueInner n).sound lexer
    generalize Json.parseValueInner (n + 1) lexer nodes keyOffset keyLength = parsed
      at hagree herr ⊢
    generalize skipValueInner (n + 1) lexer = skipped at hagree hsound
    cases hagree with
    | refused hparsed => exact absurd herr hparsed
    | accepted =>
      obtain ⟨m, hws, hval⟩ := hsound rfl
      obtain ⟨b, m', rfl, hb, -⟩ := hval.head
      refine ⟨n, ?_⟩
      rwa [rest_skipWhitespace_of_ws hws (ends_of_not_mem hb)]

/-- The rest of the text at the offset of a token. -/
theorem drop_offset (lexer : JsonLexer) :
    lexer.source.drop (next lexer).1.offset = (skipWhitespace lexer).rest := by
  rw [← goBack lexer, JsonLexer.rest, next_source]

/-- A string token takes the string from behind the whitespace on, and its lexeme is the range of
what is between the quotes. -/
theorem next_key {lexer : JsonLexer} (h : (next lexer).1.kind = .string) :
    ∃ content r, (skipWhitespace lexer).rest = 34 :: (content ++ 34 :: r) ∧ Chars content ∧
      (next lexer).2.rest = r ∧
      lexer.source.drop (next lexer).1.lexeme.start = content ++ 34 :: r ∧
      (next lexer).1.lexeme.length = content.length := by
  obtain ⟨l, hws, htoken⟩ := next_of_kind h nofun
  generalize hbehind : (next lexer).2.rest = behind at htoken
  cases htoken with
  | @string content r hcontent =>
    have hrest := rest_skipWhitespace_of_ws hws (ends_of_not_mem (by decide : (34 : UInt8) ∉ _))
    have hnext : next lexer = _ := nextToken_string hcontent hrest
    refine ⟨content, behind, hrest, hcontent, rfl, ?_, ?_⟩
    · rw [hnext]
      show lexer.source.drop ((skipWhitespace lexer).cursor + 1) = _
      rw [← drop_drop]
      exact congrArg (List.drop 1) hrest
    · rw [hnext]

/-- **The key of a member** is in front of its value. -/
theorem named_of_parseKey (object : Bool) {lexer : JsonLexer} {node : JsonNode}
    (herr : (parseKey object lexer).1 = .none)
    (hoff : node.keyOffset = (parseKey object lexer).2.2.1)
    (hlen : node.keyLength = (parseKey object lexer).2.2.2) :
    ∃ l, Ws lexer.rest l ∧
      Named lexer.source object node l (skipWhitespace (parseKey object lexer).2.1).rest := by
  cases object with
  | false => exact ⟨_, ws_rest lexer, rfl⟩
  | true =>
    unfold parseKey at herr hoff hlen ⊢
    simp only [if_true] at herr hoff hlen ⊢
    rcases Decidable.em ((next lexer).1.kind = .error) with hkey | hkey
    · rw [if_pos hkey] at herr
      exact absurd herr (next_error hkey)
    simp only [if_neg hkey] at herr hoff hlen ⊢
    rcases Decidable.em ((next lexer).1.kind ≠ .string) with hstr | hstr
    · rw [if_pos hstr] at herr
      nomatch herr
    simp only [if_neg hstr] at herr hoff hlen ⊢
    rcases Decidable.em ((next (next lexer).2).1.kind ≠ .colon) with hcolon | hcolon
    · rw [if_pos hcolon] at herr
      split at herr
      · rename_i hkind
        exact absurd herr (next_error hkind)
      · nomatch herr
    simp only [if_neg hcolon] at herr hoff hlen ⊢
    obtain ⟨content, r, hrest, hchars, hbehind, hdrop, hlength⟩ :=
      next_key (Classical.not_not.mp hstr)
    obtain ⟨k, hws, htoken⟩ := next_of_kind (Classical.not_not.mp hcolon) nofun
    rw [hbehind] at hws
    have hvalue := ws_rest (next (next lexer).2).2
    generalize (skipWhitespace (next (next lexer).2).2).rest = m at hvalue ⊢
    generalize (next (next lexer).2).2.rest = behind at htoken hvalue
    cases htoken with
    | colon =>
      refine ⟨_, ws_rest lexer, content, r, behind, hrest, hchars, hws, hvalue, ?_, ?_⟩
      · rw [hoff, Int.toNat_natCast, hdrop]
      · rw [hlen, hlength]

end Raz.Json
