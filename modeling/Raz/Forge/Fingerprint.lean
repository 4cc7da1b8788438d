import Mathlib.Data.List.Sort
import Mathlib.Data.Nat.Digits.Defs
import Mathlib.Data.Nat.Digits.Lemmas
import Raz.Forge.Record
import Raz.Lib.Codec

/-!
# Fingerprints and cache keys

What the incremental build knows of a module: the hash of the text of each function with and
without what only the front end needs. A cache key is the hash of framed fields, among them the
fingerprints of a module without functions that carries the parts of the key as metadata.

The printer and the hash are parameters; the hash is free of collisions.

Result: `buildCacheKey_inj`: a key determines the metadata of its module up to their order.
-/

namespace Raz.Forge.Record

open List

/-- The printer and `sha256`, as far as the build relies on them. -/
structure Hashing where
  printModule : Module → Text
  sha256 : Text → Text
  sha256_injective : Function.Injective sha256
  sha256_ne_nil : ∀ text, sha256 text ≠ []

def text (literal : String) : Text := literal.toUTF8.data.toList

/-! ## Fields -/

def decimalDigits (value : Nat) : List Nat := if value = 0 then [0] else Nat.digits 10 value

/-- `to_string`. -/
def decimal (value : Nat) : Text :=
  (decimalDigits value).reverse.map fun digit => UInt8.ofNat (48 + digit)

def field (name value : Text) : Text :=
  name ++ 58 :: (decimal value.length ++ 58 :: (value ++ [10]))

theorem decimalDigits_lt {value digit : Nat} (h : digit ∈ decimalDigits value) : digit < 10 := by
  unfold decimalDigits at h
  split at h
  · rw [mem_singleton.mp h]
    decide
  · exact Nat.digits_lt_base (by decide) h

theorem ofDigits_decimalDigits (value : Nat) : Nat.ofDigits 10 (decimalDigits value) = value := by
  unfold decimalDigits
  split
  · rename_i h
    rw [h]
    rfl
  · exact Nat.ofDigits_digits 10 value

theorem toNat_digit {digit : Nat} (h : digit < 10) :
    (UInt8.ofNat (48 + digit)).toNat = 48 + digit :=
  Nat.mod_eq_of_lt (by omega)

theorem colon_notMem_decimal (value : Nat) : 58 ∉ decimal value := by
  intro h
  obtain ⟨digit, hdigit, heq⟩ := mem_map.mp h
  have hlt := decimalDigits_lt (mem_reverse.mp hdigit)
  have hnat := congrArg UInt8.toNat heq
  rw [toNat_digit hlt] at hnat
  exact absurd hnat (Nat.ne_of_lt (Nat.add_lt_add_left hlt 48))

theorem decimal_injective : Function.Injective decimal := by
  intro a b h
  have hmap : ∀ value, (decimal value).reverse.map (fun byte => byte.toNat - 48) =
      decimalDigits value := by
    intro value
    unfold decimal
    rw [← map_reverse, reverse_reverse, map_map]
    refine map_congr_left (fun digit hdigit => ?_) |>.trans (map_id _)
    change (UInt8.ofNat (48 + digit)).toNat - 48 = digit
    rw [toNat_digit (decimalDigits_lt hdigit), Nat.add_sub_cancel_left]
  rw [← ofDigits_decimalDigits a, ← hmap a, h, hmap b, ofDigits_decimalDigits]

theorem field_append_inj {name value other rest more : Text}
    (h : field name value ++ rest = field name other ++ more) : value = other ∧ rest = more := by
  unfold field at h
  simp only [append_assoc, cons_append] at h
  have hback := (List.cons.inj (append_cancel_left h)).2
  obtain ⟨hlen, hval⟩ := Codec.front_eq (colon_notMem_decimal _) (colon_notMem_decimal _) hback
  obtain ⟨rfl, hrest⟩ := append_inj hval (decimal_injective hlen)
  exact ⟨rfl, (List.cons.inj hrest).2⟩

theorem field_inj {name value other : Text} (h : field name value = field name other) :
    value = other :=
  (field_append_inj (congrArg (· ++ ([] : Text)) h)).1

theorem field_ne_nil (name value : Text) : field name value ≠ [] :=
  append_ne_nil_of_right_ne_nil _ (cons_ne_nil _ _)

/-! ## Attributes -/

/-- The order of pairs of texts. -/
def Attribute.le (a b : Attribute) : Bool :=
  decide (a.name < b.name) || (a.name == b.name && decide (a.value ≤ b.value))

def sortedAttributes (items : List Attribute) : List Attribute := items.mergeSort Attribute.le

def Attribute.fields (item : Attribute) : Text :=
  field (text "attribute-name") item.name ++ field (text "attribute-value") item.value

/-- `append_attributes`. -/
def attributesText (items : List Attribute) : Text :=
  (sortedAttributes items).flatMap Attribute.fields

theorem fields_append_inj {a b : Attribute} {rest more : Text}
    (h : a.fields ++ rest = b.fields ++ more) : a = b ∧ rest = more := by
  unfold Attribute.fields at h
  rw [append_assoc, append_assoc] at h
  obtain ⟨hname, hrest⟩ := field_append_inj h
  obtain ⟨hval, hmore⟩ := field_append_inj hrest
  cases a
  cases b
  exact ⟨Attribute.mk.injEq .. ▸ ⟨hname, hval⟩, hmore⟩

theorem flatMap_fields_inj {items : List Attribute} :
    ∀ {others : List Attribute}, items.flatMap Attribute.fields = others.flatMap Attribute.fields →
      items = others := by
  have hne : ∀ (item : Attribute) (rest : Text), item.fields ++ rest ≠ [] := fun item rest =>
    append_ne_nil_of_left_ne_nil
      (append_ne_nil_of_left_ne_nil (field_ne_nil _ _) _) rest
  induction items with
  | nil =>
    intro others h
    cases others with
    | nil => rfl
    | cons other others => exact absurd h.symm (hne other _)
  | cons item items ih =>
    intro others h
    cases others with
    | nil => exact absurd h (hne item _)
    | cons other others =>
      obtain ⟨rfl, hrest⟩ := fields_append_inj h
      rw [ih hrest]

theorem attributesText_inj {items others : List Attribute}
    (h : attributesText items = attributesText others) : items.Perm others := by
  have hsorted : sortedAttributes items = sortedAttributes others := flatMap_fields_inj h
  refine (mergeSort_perm items Attribute.le).symm.trans ?_
  change (sortedAttributes items).Perm others
  rw [hsorted]
  exact mergeSort_perm others Attribute.le

/-! ## Texts of functions and modules -/

namespace Hashing

variable (h : Hashing)

def semanticText (function : Function) : Text :=
  h.printModule { name := text "incremental-function", functions := [function.generated] }

def operationText (index : Nat) (operation : Operation) : Text :=
  field (text "operation-index") (decimal index) ++
    field (text "source-file") operation.sourceFile ++
    field (text "source-line") (decimal operation.sourceLine.toNat) ++
    field (text "source-column") (decimal operation.sourceColumn.toNat) ++
    field (text "source-end-line") (decimal operation.sourceEndLine.toNat) ++
    field (text "source-end-column") (decimal operation.sourceEndColumn.toNat) ++
    attributesText operation.attributes

def blockText (block : Block) : Text :=
  field (text "block") block.name ++
    block.operations.zipIdx.flatMap fun item => operationText item.2 item.1

def frontendText (function : Function) : Text :=
  h.semanticText function ++ function.blocks.flatMap blockText

def moduleSemanticText (m : Module) : Text := h.printModule m.generated

def sortedFunctions (m : Module) : List Function :=
  m.functions.mergeSort fun a b => decide (a.name ≤ b.name)

def moduleFrontendText (m : Module) : Text :=
  h.moduleSemanticText m ++ attributesText m.metadata ++
    (sortedFunctions m).flatMap fun function =>
      field (text "function-frontend") (h.frontendText function)

end Hashing

/-! ## Snapshots -/

structure FunctionFingerprint where
  name : Text
  semanticFingerprint : Text
  frontendFingerprint : Text
deriving DecidableEq, Repr

structure IncrementalSnapshot where
  semanticFingerprint : Text := []
  frontendFingerprint : Text := []
  functions : List FunctionFingerprint := []
deriving DecidableEq, Repr

namespace Hashing

variable (h : Hashing)

def fingerprint (function : Function) : FunctionFingerprint where
  name := function.name
  semanticFingerprint := h.sha256 (h.semanticText function)
  frontendFingerprint := h.sha256 (h.frontendText function)

def buildIncrementalSnapshot (m : Module) : IncrementalSnapshot where
  semanticFingerprint := h.sha256 (h.moduleSemanticText m)
  frontendFingerprint := h.sha256 (h.moduleFrontendText m)
  functions := (m.functions.map h.fingerprint).mergeSort fun a b => decide (a.name ≤ b.name)

/-! ## Cache keys -/

def keyText (m : Module) (frontendId configuration : Text) : Text :=
  field (text "schema") (text "forge-incremental-v1") ++
    (field (text "frontend") frontendId ++
    (field (text "configuration") configuration ++
    (field (text "semantic") (h.buildIncrementalSnapshot m).semanticFingerprint ++
    field (text "frontend-state") (h.buildIncrementalSnapshot m).frontendFingerprint)))

def buildCacheKey (m : Module) (frontendId configuration : Text) : Text :=
  h.sha256 (h.keyText m frontendId configuration)

theorem buildCacheKey_frontend {m other : Module} {frontendId configuration id others : Text}
    (heq : h.buildCacheKey m frontendId configuration = h.buildCacheKey other id others) :
    frontendId = id :=
  (field_append_inj (field_append_inj (h.sha256_injective heq)).2).1

/-- **A key determines the metadata** of modules of one name that have nothing else, up to their
order. -/
theorem buildCacheKey_inj {name frontendId configuration id others : Text}
    {items metadata : List Attribute}
    (heq : h.buildCacheKey { name := name, metadata := items } frontendId configuration =
      h.buildCacheKey { name := name, metadata := metadata } id others) :
    items.Perm metadata := by
  have hframed := h.sha256_injective heq
  unfold keyText at hframed
  have hstate := (field_append_inj (field_append_inj (field_append_inj (field_append_inj
    hframed).2).2).2).2
  have htext := h.sha256_injective (field_inj hstate)
  -- no functions, and the printed text without the metadata is the same
  have hattributes : attributesText items = attributesText metadata := by
    have hfront := append_cancel_right htext
    exact append_cancel_left hfront
  exact attributesText_inj hattributes

end Hashing

end Raz.Forge.Record
