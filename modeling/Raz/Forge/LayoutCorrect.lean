import Raz.Forge.LayoutPacking

/-!
# What has a layout

A type is a scalar, or an aggregate by the name of its declaration. `Extent` gives the size and the
alignment that a declaration takes up in unbounded arithmetic, and `Faulty` says what can be wrong
with what a declaration reaches.

Result: `dataLayout_correct`: a struct or an array has a layout if and only if it reaches no fault,
and the layout is the packing of its fields or elements.
-/

namespace Raz.Forge

open Packing List DataLayout

variable {root : LayoutItem} {passed active : List AggregateRef} {ref : AggregateRef}
  {type : TypeKind} {levels : Nat} {extents : List (Nat × Nat)} {declaration : StructDecl}

/-! ## What a declaration reaches -/

/-- What has a size: a scalar, or the declaration of an aggregate. -/
inductive LayoutItem where
  | scalar (type : TypeKind)
  | structure_ (declaration : StructDecl)
  | array (declaration : ArrayDecl)

/-- The type of a field or of an element. -/
abbrev PartType := TypeKind × Option AggregateRef

def StructField.partType (field : StructField) : PartType := (field.type, field.aggregate)

def ArrayDecl.partType (declaration : ArrayDecl) : PartType :=
  (declaration.elementType, declaration.elementAggregate)

namespace LayoutItem

def parts : LayoutItem → List PartType
  | scalar _ => []
  | structure_ declaration => declaration.fields.map StructField.partType
  | array declaration => [declaration.partType]

/-- The name a declaration goes by. -/
def name : LayoutItem → Option AggregateRef
  | scalar _ => none
  | structure_ declaration => some ⟨.structure_, declaration.name⟩
  | array declaration => some ⟨.array, declaration.name⟩

end LayoutItem

/-- The scalar that a type is, or the first declaration of its name. -/
def Module.item (m : Module) : PartType → Option LayoutItem
  | (type, none) => some (.scalar type)
  | (_, some ⟨.structure_, name⟩) => (m.findStruct name).map .structure_
  | (_, some ⟨.array, name⟩) => (m.findArray name).map .array

/-- The item is reached from the root through the declarations of the names passed. -/
inductive Module.Reaches (m : Module) (root : LayoutItem) :
    List AggregateRef → LayoutItem → Prop
  | here : m.Reaches root [] root
  | part {passed : List AggregateRef} {item next : LayoutItem} {part : PartType} :
      m.Reaches root passed item → part ∈ item.parts → m.item part = some next →
      m.Reaches root (item.name.toList ++ passed) next

/-- The size and the alignment of an item, with no bound on the numbers: the parts of a struct
packed in order, an array's elements at multiples of its stride. -/
inductive DataLayout.Extent (layout : DataLayout) (m : Module) : LayoutItem → Nat × Nat → Prop
  | scalar {type : TypeKind} {size alignment : Nat} :
      layout.sizeOf type = some size → layout.alignmentOf type = some alignment →
      layout.Extent m (.scalar type) (size, alignment)
  | structure_ {declaration : StructDecl} {items : List LayoutItem} {extents : List (Nat × Nat)} :
      (declaration.fields.map fun field => m.item field.partType) = items.map some →
      items.length = extents.length →
      (∀ (i : Nat) item extent, items[i]? = some item → extents[i]? = some extent →
        layout.Extent m item extent) →
      layout.Extent m (.structure_ declaration)
        (alignUp (finish 0 extents) (maxAlignment 1 extents), maxAlignment 1 extents)
  | array {declaration : ArrayDecl} {item : LayoutItem} {size alignment : Nat} :
      m.item declaration.partType = some item → layout.Extent m item (size, alignment) →
      layout.Extent m (.array declaration)
        (alignUp size alignment * declaration.elementCount, alignment)

/-- What can be wrong with what a declaration reaches. -/
inductive DataLayout.Faulty (layout : DataLayout) (m : Module) (root : LayoutItem) : Prop
  | missing {passed : List AggregateRef} {item : LayoutItem} {part : PartType} :
      m.Reaches root passed item → part ∈ item.parts → m.item part = none → layout.Faulty m root
  | again {passed : List AggregateRef} {item : LayoutItem} {ref : AggregateRef} :
      m.Reaches root passed item → item.name = some ref → ref ∈ passed → layout.Faulty m root
  | empty {passed : List AggregateRef} {declaration : ArrayDecl} :
      m.Reaches root passed (.array declaration) → declaration.elementCount = 0 →
      layout.Faulty m root
  | void {passed : List AggregateRef} : m.Reaches root passed (.scalar .void) →
      layout.Faulty m root
  | tooLarge {passed : List AggregateRef} {item : LayoutItem} {ref : AggregateRef}
      {size alignment : Nat} :
      m.Reaches root passed item → item.name = some ref → layout.Extent m item (size, alignment) →
      sizeMax < size → layout.Faulty m root

section
variable {layout : DataLayout} {m : Module}

/-- **A declaration takes up one size and one alignment.** -/
theorem DataLayout.Extent.unique {item : LayoutItem} {first second : Nat × Nat}
    (hfirst : layout.Extent m item first) (hsecond : layout.Extent m item second) :
    first = second := by
  induction hfirst generalizing second with
  | scalar hsize halignment =>
    cases hsecond with
    | scalar hsize' halignment' =>
      rw [Option.some.inj (hsize.symm.trans hsize'),
        Option.some.inj (halignment.symm.trans halignment')]
  | @structure_ declaration items extents hitems hlen hparts ih =>
    cases hsecond with
    | @structure_ _ items' extents' hitems' hlen' hparts' =>
      have heq : items = items' :=
        map_injective_iff.mpr (Option.some_injective _) (hitems.symm.trans hitems')
      subst heq
      have hextents : extents = extents' := by
        refine ext_getElem (hlen.symm.trans hlen') fun i hi hi' => ?_
        have hitem : items[i]? = some (items.get ⟨i, hlen ▸ hi⟩) := List.getElem?_eq_getElem _
        exact ih i _ _ hitem (List.getElem?_eq_getElem hi)
          (hparts' i _ _ hitem (List.getElem?_eq_getElem hi'))
      rw [hextents]
  | array hitem _ ih =>
    cases hsecond with
    | array hitem' hext' =>
      obtain rfl := Option.some.inj (hitem.symm.trans hitem')
      obtain ⟨rfl, rfl⟩ := Prod.mk.inj (ih hext')
      rfl

/-- Nothing is wrong with an item that is reached through the names passed, while the active ones
are being laid out. -/
structure SoundItem (layout : DataLayout) (m : Module) (active passed : List AggregateRef)
    (item : LayoutItem) : Prop where
  fresh : ∀ ref, item.name = some ref → ref ∉ passed ++ active
  declared : ∀ part ∈ item.parts, m.item part ≠ none
  nonempty : ∀ declaration, item = .array declaration → declaration.elementCount ≠ 0
  notVoid : item ≠ .scalar .void
  fits : ∀ ref size alignment, item.name = some ref → layout.Extent m item (size, alignment) →
    size ≤ sizeMax

/-- Nothing is wrong with what an item reaches. -/
def Clean (layout : DataLayout) (m : Module) (active : List AggregateRef) (root : LayoutItem) :
    Prop :=
  ∀ passed item, m.Reaches root passed item → SoundItem layout m active passed item

theorem not_faulty_iff : ¬ layout.Faulty m root ↔ Clean layout m [] root := by
  constructor
  · intro h passed item hreach
    refine ⟨fun ref hname hmem => h (.again hreach hname (by simpa using hmem)),
      fun part hpart hnone => h (.missing hreach hpart hnone), ?_, ?_,
      fun ref size alignment hname hext => Nat.le_of_not_lt fun hover =>
        h (.tooLarge hreach hname hext hover)⟩
    · rintro declaration rfl hzero
      exact h (.empty hreach hzero)
    · rintro rfl
      exact h (.void hreach)
  · intro h hfaulty
    cases hfaulty with
    | missing hreach hpart hnone => exact (h _ _ hreach).declared _ hpart hnone
    | again hreach hname hmem => exact (h _ _ hreach).fresh _ hname (mem_append_left _ hmem)
    | empty hreach hzero => exact (h _ _ hreach).nonempty _ rfl hzero
    | void hreach => exact (h _ _ hreach).notVoid rfl
    | tooLarge hreach hname hext hover =>
      exact Nat.not_le_of_lt hover ((h _ _ hreach).fits _ _ _ hname hext)

/-- What is reached is the root, or is reached from one of its parts. -/
theorem Module.Reaches.from_part {item : LayoutItem} (h : m.Reaches root passed item) :
    passed = [] ∧ item = root ∨
      ∃ part next inner, part ∈ root.parts ∧ m.item part = some next ∧ m.Reaches next inner item ∧
        passed = inner ++ root.name.toList := by
  induction h with
  | here => exact .inl ⟨rfl, rfl⟩
  | @part passed item next part _ hpart hnext ih =>
    refine .inr ?_
    rcases ih with ⟨rfl, rfl⟩ | ⟨first, second, inner, hfirst, hsecond, hreach, rfl⟩
    · exact ⟨part, next, [], hpart, hnext, .here, by simp⟩
    · exact ⟨first, second, _, hfirst, hsecond, .part hreach hpart hnext, by simp⟩

theorem clean_of_parts {item : LayoutItem} (hname : item.name = some ref)
    (hsound : SoundItem layout m active [] item) (hparts : ∀ part ∈ item.parts, ∀ next, m.item part
      = some next → Clean layout m (ref :: active) next) :
    Clean layout m active item := by
  intro passed other hreach
  rcases hreach.from_part with ⟨rfl, rfl⟩ | ⟨part, next, inner, hpart, hnext, hinner, rfl⟩
  · exact hsound
  · obtain ⟨hfresh, hdeclared, hnonempty, hvoid, hfits⟩ := hparts part hpart next hnext _ _ hinner
    refine ⟨fun ref' hname' => ?_, hdeclared, hnonempty, hvoid, hfits⟩
    simpa [hname] using hfresh ref' hname'

theorem clean_scalar (active : List AggregateRef) (h : type ≠ .void) :
    Clean layout m active (.scalar type) := by
  intro passed item hreach
  rcases hreach.from_part with ⟨rfl, rfl⟩ | ⟨part, next, inner, hpart, -⟩
  · exact ⟨nofun, nofun, nofun, fun heq => h (LayoutItem.scalar.inj heq), nofun⟩
  · nomatch hpart

/-! ## What a level computes -/

/-- The size and the alignment of a type, with the active names being laid out. -/
def DataLayout.ofPart (layout : DataLayout) (m : Module) (levels : Nat)
    (active : List AggregateRef) (part : PartType) : Option (Nat × Nat) :=
  layout.ofElement (layout.nested m levels active) part.1 part.2

/-- What the level computes for a type is what the type takes up, and nothing is wrong with it. -/
def LevelSound (layout : DataLayout) (m : Module) (levels : Nat) (active : List AggregateRef) :
    Prop :=
  ∀ part extent, layout.ofPart m levels active part = some extent →
    ∃ item, m.item part = some item ∧ layout.Extent m item extent ∧ Clean layout m active item

theorem LevelSound.items (hlevel : LevelSound layout m levels active) {fields : List StructField}
    (hmap : fields.map (layout.ofField (layout.nested m levels active)) = extents.map some) :
    ∃ items : List LayoutItem,
      (fields.map fun field => m.item field.partType) = items.map some ∧
      items.length = extents.length ∧
      (∀ (i : Nat) item extent, items[i]? = some item → extents[i]? = some extent →
        layout.Extent m item extent) ∧
      ∀ item ∈ items, Clean layout m active item := by
  induction fields generalizing extents with
  | nil =>
    obtain rfl : extents = [] := by simpa using hmap.symm
    exact ⟨[], rfl, rfl, nofun, nofun⟩
  | cons field fields ih =>
    cases extents with
    | nil => simp at hmap
    | cons extent extents =>
      rw [map_cons, map_cons, List.cons.injEq] at hmap
      obtain ⟨item, hitem, hext, hclean⟩ := hlevel field.partType extent hmap.1
      obtain ⟨items, hitems, hlen, hextents, hcleans⟩ := ih hmap.2
      refine ⟨item :: items, ?_, congrArg (· + 1) hlen, ?_,
        forall_mem_cons.mpr ⟨hclean, hcleans⟩⟩
      · rw [map_cons, map_cons, hitem, hitems]
      rintro (_ | i) other extent' hi hj
      · obtain rfl : item = other := by simpa using hi
        obtain rfl : extent = extent' := by simpa using hj
        exact hext
      · exact hextents i other extent' (by simpa using hi) (by simpa using hj)

theorem ofFields_sound {r : StructLayout}
    (hfresh : (⟨.structure_, declaration.name⟩ : AggregateRef) ∉ active)
    (hlevel : LevelSound layout m levels (⟨.structure_, declaration.name⟩ :: active)) (h :
      layout.ofFields (layout.nested m levels (⟨.structure_, declaration.name⟩ :: active))
      declaration.fields = some r) :
    layout.Extent m (.structure_ declaration) (r.size, r.alignment) ∧
      Clean layout m active (.structure_ declaration) := by
  obtain ⟨extents, hmap, -, hfits, rfl⟩ := ofFields_eq_some.mp h
  obtain ⟨items, hitems, hlen, hextents, hcleans⟩ := hlevel.items hmap
  have hext : layout.Extent m (.structure_ declaration)
      ((packed extents).size, (packed extents).alignment) :=
    .structure_ hitems hlen hextents
  have hparts : ∀ part ∈ (LayoutItem.structure_ declaration).parts,
      ∃ item ∈ items, m.item part = some item := by
    intro part hpart
    obtain ⟨field, hfield, rfl⟩ := mem_map.mp hpart
    have hmem := mem_map_of_mem (f := fun field => m.item field.partType) hfield
    rw [hitems, mem_map] at hmem
    obtain ⟨item, hitem, heq⟩ := hmem
    exact ⟨item, hitem, heq.symm⟩
  refine ⟨hext, clean_of_parts rfl ⟨?_, ?_, nofun, nofun, ?_⟩ ?_⟩
  · rintro ref hname
    cases hname
    simpa using hfresh
  · intro part hpart hnone
    obtain ⟨item, -, hitem⟩ := hparts part hpart
    nomatch hnone.symm.trans hitem
  · intro ref size alignment _ hother
    rw [(Prod.mk.inj (hother.unique hext)).1]
    exact hfits
  intro part hpart next hnext
  obtain ⟨item, hmem, hitem⟩ := hparts part hpart
  obtain rfl := Option.some.inj (hnext.symm.trans hitem)
  exact hcleans _ hmem

theorem ofElements_sound {declaration : ArrayDecl} {r : ArrayLayout}
    (hfresh : (⟨.array, declaration.name⟩ : AggregateRef) ∉ active)
    (hlevel : LevelSound layout m levels (⟨.array, declaration.name⟩ :: active)) (h :
      layout.ofElements (layout.nested m levels (⟨.array, declaration.name⟩ :: active)) declaration
      = some r) :
    layout.Extent m (.array declaration) (r.size, r.alignment) ∧
      Clean layout m active (.array declaration) := by
  obtain ⟨hcount, size, alignment, hpart, -, hfits, rfl⟩ := ofElements_eq_some.mp h
  obtain ⟨item, hitem, hext, hclean⟩ := hlevel declaration.partType _ hpart
  have hext : layout.Extent m (.array declaration)
      (alignUp size alignment * declaration.elementCount, alignment) :=
    .array hitem hext
  have hparts : ∀ part ∈ (LayoutItem.array declaration).parts, m.item part = some item := by
    intro part hpart
    rwa [mem_singleton.mp hpart]
  refine ⟨hext, clean_of_parts rfl ⟨?_, ?_, ?_, nofun, ?_⟩ ?_⟩
  · rintro ref hname
    cases hname
    simpa using hfresh
  · intro part hpart hnone
    nomatch hnone.symm.trans (hparts part hpart)
  · rintro _ heq
    obtain rfl := LayoutItem.array.inj heq
    exact hcount
  · intro ref size alignment _ hother
    rw [(Prod.mk.inj (hother.unique hext)).1]
    exact hfits
  · intro part hpart next hnext
    obtain rfl := Option.some.inj (hnext.symm.trans (hparts part hpart))
    exact hclean

theorem Module.findStruct_name {m : Module} {name : String}
    (h : m.findStruct name = some declaration) : declaration.name = name := by
  unfold Module.findStruct at h
  simpa using List.find?_some h

theorem Module.findArray_name {m : Module} {name : String} {declaration : ArrayDecl}
    (h : m.findArray name = some declaration) : declaration.name = name := by
  unfold Module.findArray at h
  simpa using List.find?_some h

theorem scalar_sound {extent : Nat × Nat}
    (h : layout.ofPart m levels active (type, none) = some extent) :
    layout.Extent m (.scalar type) extent ∧ Clean layout m active (.scalar type) := by
  have h : (do some (← layout.sizeOf type, ← layout.alignmentOf type)) = some extent := h
  simp only [Option.bind_eq_bind, Option.bind_eq_some_iff] at h
  obtain ⟨size, hsize, alignment, halignment, heq⟩ := h
  cases heq
  refine ⟨.scalar hsize halignment, clean_scalar active ?_⟩
  rintro rfl
  nomatch hsize

/-- **What a level computes is what the type takes up**, by induction on the levels. -/
theorem level_sound (levels : Nat) (active : List AggregateRef) :
    LevelSound layout m levels active := by
  induction levels generalizing active with
  | zero =>
    rintro ⟨type, ref | ref⟩ extent h
    · exact ⟨_, rfl, scalar_sound h⟩
    · nomatch h
  | succ levels ih =>
    rintro ⟨type, ref | ⟨kind, name⟩⟩ extent h
    · exact ⟨_, rfl, scalar_sound h⟩
    have h : layout.nested m (levels + 1) active ⟨kind, name⟩ = some extent := h
    unfold nested at h
    split at h
    · nomatch h
    rename_i hfresh
    cases kind with
    | structure_ =>
      simp only [Option.bind_eq_bind, Option.bind_eq_some_iff] at h
      obtain ⟨declaration, hfind, r, hr, heq⟩ := h
      obtain rfl := Module.findStruct_name hfind
      obtain ⟨hext, hclean⟩ := ofFields_sound hfresh (ih _) hr
      refine ⟨.structure_ declaration, ?_, Option.some.inj heq ▸ hext, hclean⟩
      rw [Module.item, hfind]
      rfl
    | array =>
      simp only [Option.bind_eq_bind, Option.bind_eq_some_iff] at h
      obtain ⟨declaration, hfind, r, hr, heq⟩ := h
      obtain rfl := Module.findArray_name hfind
      obtain ⟨hext, hclean⟩ := ofElements_sound hfresh (ih _) hr
      refine ⟨.array declaration, ?_, Option.some.inj heq ▸ hext, hclean⟩
      rw [Module.item, hfind]
      rfl

/-! ## What has a layout -/

/-- The names of a module's declarations. -/
def Module.refs (m : Module) : List AggregateRef :=
  m.structs.map (fun declaration => ⟨.structure_, declaration.name⟩) ++
    m.arrays.map fun declaration => ⟨.array, declaration.name⟩

theorem Module.length_refs (m : Module) : m.refs.length = m.declarations := by
  simp [Module.refs, Module.declarations]

theorem Module.item_name_mem {m : Module} {part : PartType} {item : LayoutItem}
    (h : m.item part = some item) (hname : item.name = some ref) :
    ref ∈ m.refs := by
  obtain ⟨type, kind | ⟨kind | kind, name⟩⟩ := part
  · cases h
    nomatch hname
  · obtain ⟨declaration, hfind, rfl⟩ := Option.map_eq_some_iff.mp h
    cases hname
    exact mem_append_left _ (mem_map_of_mem (List.mem_of_find?_eq_some hfind))
  · obtain ⟨declaration, hfind, rfl⟩ := Option.map_eq_some_iff.mp h
    cases hname
    exact mem_append_right _ (mem_map_of_mem (List.mem_of_find?_eq_some hfind))

theorem LayoutItem.name_of_part {item : LayoutItem} {part : PartType} (h : part ∈ item.parts) :
    ∃ ref, item.name = some ref := by
  cases item with
  | scalar => nomatch h
  | structure_ declaration => exact ⟨_, rfl⟩
  | array declaration => exact ⟨_, rfl⟩

/-- The names passed on the way to an item are distinct, and all but the root's are declared. -/
theorem Module.Reaches.names {item : LayoutItem} (hclean : Clean layout m [] root)
    (h : m.Reaches root passed item) :
    (item.name.toList ++ passed).Nodup ∧
      ∀ ref ∈ (item.name.toList ++ passed).dropLast, ref ∈ m.refs := by
  induction h with
  | here => cases hname : root.name <;> simp
  | @part passed item next part hreach hpart hnext ih =>
    cases hname : next.name with
    | none => exact ih
    | some ref =>
      have hfresh := (hclean _ _ (.part hreach hpart hnext)).fresh ref hname
      rw [append_nil] at hfresh
      obtain ⟨first, hfirst⟩ := LayoutItem.name_of_part hpart
      refine ⟨nodup_cons.mpr ⟨hfresh, ih.1⟩, ?_⟩
      rw [Option.toList_some, singleton_append,
        dropLast_cons_of_ne_nil (by simp [hfirst]), forall_mem_cons]
      exact ⟨Module.item_name_mem hnext hname, ih.2⟩

/-- There are no more names on the way to a declaration than the module declares. -/
theorem Module.Reaches.length_le {item : LayoutItem} (hclean : Clean layout m [] root)
    (h : m.Reaches root passed item) (hname : item.name = some ref) :
    passed.length ≤ m.declarations := by
  obtain ⟨hnodup, hmem⟩ := h.names hclean
  have hle := List.Nodup.length_le_of_subset (hnodup.sublist (dropLast_sublist _)) hmem
  rw [m.length_refs, hname] at hle
  simpa using hle

theorem ofFields_complete (hclean : Clean layout m [] root)
    (hreach : m.Reaches root passed (.structure_ declaration)) (hparts : ∀ part ∈
      (LayoutItem.structure_ declaration).parts, ∃ extent, layout.ofPart m levels (⟨.structure_,
      declaration.name⟩ :: passed) part = some extent ∧ isPowerOfTwo extent.2 = true) :
    ∃ r, layout.ofFields (layout.nested m levels (⟨.structure_, declaration.name⟩ :: passed))
      declaration.fields = some r ∧ isPowerOfTwo r.alignment = true := by
  have hextents : ∃ extents : List (Nat × Nat), declaration.fields.map
        (layout.ofField (layout.nested m levels (⟨.structure_, declaration.name⟩ :: passed))) =
        extents.map some ∧ ∀ e ∈ extents, isPowerOfTwo e.2 = true := by
    simp only [LayoutItem.parts, forall_mem_map] at hparts
    revert hparts
    generalize declaration.fields = fields
    intro hparts
    induction fields with
    | nil => exact ⟨[], rfl, nofun⟩
    | cons field fields ih =>
      rw [forall_mem_cons] at hparts
      obtain ⟨⟨extent, hext, hpower⟩, hrest⟩ := hparts
      obtain ⟨extents, hmap, hpowers⟩ := ih hrest
      exact ⟨extent :: extents, congrArg₂ _ hext hmap, forall_mem_cons.mpr ⟨hpower, hpowers⟩⟩
  obtain ⟨extents, hmap, hpowers⟩ := hextents
  obtain ⟨items, hitems, hlen, hextents, -⟩ := (level_sound levels _).items hmap
  have hfits := (hclean _ _ hreach).fits _ _ _ rfl (.structure_ hitems hlen hextents)
  exact ⟨packed extents, ofFields_eq_some.mpr ⟨extents, hmap, hpowers, hfits, rfl⟩,
    isPowerOfTwo_maxAlignment 1 rfl hpowers⟩

theorem ofElements_complete {declaration : ArrayDecl} (hclean : Clean layout m [] root)
    (hreach : m.Reaches root passed (.array declaration)) (hpart : ∃ extent, layout.ofPart m
      levels (⟨.array, declaration.name⟩ :: passed) declaration.partType = some extent ∧
      isPowerOfTwo extent.2 = true) :
    ∃ r, layout.ofElements (layout.nested m levels (⟨.array, declaration.name⟩ :: passed))
      declaration = some r ∧ isPowerOfTwo r.alignment = true := by
  obtain ⟨⟨size, alignment⟩, hext, hpower⟩ := hpart
  obtain ⟨item, hitem, hitemExtent, -⟩ := level_sound levels _ _ _ hext
  have hsound := hclean _ _ hreach
  have hfits := hsound.fits _ _ _ rfl (.array hitem hitemExtent)
  exact ⟨_, ofElements_eq_some.mpr
    ⟨hsound.nonempty _ rfl, size, alignment, hext, hpower, hfits, rfl⟩, hpower⟩

theorem scalar_complete (hpower : isPowerOfTwo layout.pointerAlignment = true) (h : type ≠ .void)
    (levels : Nat) (active : List AggregateRef) :
    ∃ extent, layout.ofPart m levels active (type, none) = some extent ∧
      isPowerOfTwo extent.2 = true := by
  cases type with
  | void => exact absurd rfl h
  | ptr => exact ⟨(_, _), rfl, hpower⟩
  | _ => exact ⟨(_, _), rfl, rfl⟩

theorem nested_complete {item : LayoutItem} (hitem : m.item (type, some ref) = some item)
    (hfresh : ref ∉ active) (hfields : ∀ declaration, item = .structure_ declaration → ∃ r,
      layout.ofFields (layout.nested m levels (⟨.structure_, declaration.name⟩ :: active))
      declaration.fields = some r ∧ isPowerOfTwo r.alignment = true) (helements : ∀ declaration,
      item = .array declaration → ∃ r, layout.ofElements (layout.nested m levels (⟨.array,
      declaration.name⟩ :: active)) declaration = some r ∧ isPowerOfTwo r.alignment = true) :
    ∃ extent, layout.nested m (levels + 1) active ref = some extent ∧
      isPowerOfTwo extent.2 = true := by
  obtain ⟨kind | kind, name⟩ := ref
  · obtain ⟨declaration, hfind, rfl⟩ := Option.map_eq_some_iff.mp hitem
    obtain ⟨r, hr, hpower⟩ := hfields declaration rfl
    rw [Module.findStruct_name hfind] at hr
    refine ⟨(r.size, r.alignment), ?_, hpower⟩
    rw [nested, if_neg hfresh]
    simp [hfind, hr]
  · obtain ⟨declaration, hfind, rfl⟩ := Option.map_eq_some_iff.mp hitem
    obtain ⟨r, hr, hpower⟩ := helements declaration rfl
    rw [Module.findArray_name hfind] at hr
    refine ⟨(r.size, r.alignment), ?_, hpower⟩
    rw [nested, if_neg hfresh]
    simp [hfind, hr]

theorem Module.item_name {m : Module} {type : TypeKind} {ref : AggregateRef} {item : LayoutItem}
    (h : m.item (type, some ref) = some item) : item.name = some ref := by
  obtain ⟨kind | kind, name⟩ := ref
  · obtain ⟨declaration, hfind, rfl⟩ := Option.map_eq_some_iff.mp h
    rw [LayoutItem.name, Module.findStruct_name hfind]
  · obtain ⟨declaration, hfind, rfl⟩ := Option.map_eq_some_iff.mp h
    rw [LayoutItem.name, Module.findArray_name hfind]

/-- **Where nothing is wrong, every part has a layout**, as long as the levels last for the names
that are not passed yet. -/
theorem parts_complete (hpower : isPowerOfTwo layout.pointerAlignment = true)
    (hclean : Clean layout m [] root) (levels : Nat) {item : LayoutItem}
    (hreach : m.Reaches root passed item) (hname : item.name = some ref)
    (hlevels : m.declarations ≤ levels + passed.length) :
    ∀ part ∈ item.parts, ∃ extent, layout.ofPart m levels (ref :: passed) part = some extent ∧
      isPowerOfTwo extent.2 = true := by
  induction levels generalizing passed item ref with
  | zero =>
    rintro ⟨type, nested⟩ hpart
    obtain ⟨next, hnext⟩ := Option.ne_none_iff_exists'.mp ((hclean _ _ hreach).declared _ hpart)
    have hbelow := hreach.part hpart hnext
    cases nested with
    | none =>
      cases hnext
      exact scalar_complete hpower (fun hvoid => (hclean _ _ hbelow).notVoid (congrArg _ hvoid)) _ _
    | some ref' =>
      -- one more name than the module declares
      have hle := hbelow.length_le hclean (Module.item_name hnext)
      rw [hname, Option.toList_some, length_append, length_singleton] at hle
      omega
  | succ levels ih =>
    rintro ⟨type, nested⟩ hpart
    obtain ⟨next, hnext⟩ := Option.ne_none_iff_exists'.mp ((hclean _ _ hreach).declared _ hpart)
    have hbelow := hreach.part hpart hnext
    cases nested with
    | none =>
      cases hnext
      exact scalar_complete hpower (fun hvoid => (hclean _ _ hbelow).notVoid (congrArg _ hvoid)) _ _
    | some ref' =>
      have hname' := Module.item_name hnext
      rw [hname, Option.toList_some, singleton_append] at hbelow
      have hfresh := (hclean _ _ hbelow).fresh ref' hname'
      rw [append_nil] at hfresh
      have hparts := ih hbelow hname' (by rw [length_cons]; omega)
      refine nested_complete hnext hfresh ?_ ?_
      · rintro declaration rfl
        exact ofFields_complete hclean hbelow (Option.some.inj hname' ▸ hparts)
      · rintro declaration rfl
        cases hname'
        exact ofElements_complete hclean hbelow (hparts _ mem_cons_self)

theorem Clean.of_active (h : Clean layout m active root) : Clean layout m [] root := by
  intro passed item hreach
  obtain ⟨hfresh, hdeclared, hnonempty, hvoid, hfits⟩ := h passed item hreach
  refine ⟨fun ref hname hmem => hfresh ref hname ?_, hdeclared, hnonempty, hvoid, hfits⟩
  exact mem_append_left _ (by simpa using hmem)

theorem ofFields_isSome_iff (hpower : isPowerOfTwo layout.pointerAlignment = true)
    (hlevels : m.declarations ≤ levels) (declaration : StructDecl) :
    (layout.ofFields (layout.nested m levels [⟨.structure_, declaration.name⟩])
      declaration.fields).isSome = true ↔ ¬ layout.Faulty m (.structure_ declaration) := by
  rw [not_faulty_iff, Option.isSome_iff_exists]
  constructor
  · rintro ⟨r, hr⟩
    exact (ofFields_sound not_mem_nil (level_sound levels _) hr).2
  intro hclean
  have hparts := parts_complete hpower hclean levels .here rfl hlevels
  obtain ⟨r, hr, -⟩ := ofFields_complete hclean .here hparts
  exact ⟨r, hr⟩

theorem ofElements_isSome_iff (hpower : isPowerOfTwo layout.pointerAlignment = true)
    (hlevels : m.declarations ≤ levels) (declaration : ArrayDecl) :
    (layout.ofElements (layout.nested m levels [⟨.array, declaration.name⟩])
      declaration).isSome = true ↔ ¬ layout.Faulty m (.array declaration) := by
  rw [not_faulty_iff, Option.isSome_iff_exists]
  constructor
  · rintro ⟨r, hr⟩
    exact (ofElements_sound not_mem_nil (level_sound levels _) hr).2
  intro hclean
  have hparts := parts_complete hpower hclean levels .here rfl hlevels
  obtain ⟨r, hr, -⟩ := ofElements_complete hclean .here (hparts _ mem_cons_self)
  exact ⟨r, hr⟩

/-- The size and the alignment that a type has on its own. -/
def DataLayout.extentOf (layout : DataLayout) (m : Module) (part : PartType) :
    Option (Nat × Nat) :=
  layout.ofElement
    (fun ref => do some (← layout.aggregateSize m ref, ← layout.aggregateAlignment m ref))
    part.1 part.2

section

variable (hpower : isPowerOfTwo layout.pointerAlignment = true)

include hpower

theorem ofPart_eq_extentOf (part : PartType) {extent : Nat × Nat}
    (h : layout.ofPart m levels active part = some extent) :
    layout.extentOf m part = some extent := by
  obtain ⟨item, hitem, hext, hclean⟩ := level_sound levels active _ _ h
  have hfaultless := not_faulty_iff.mpr hclean.of_active
  obtain ⟨type, _ | ⟨kind | kind, name⟩⟩ := part
  · exact h
  · obtain ⟨declaration, hfind, rfl⟩ := Option.map_eq_some_iff.mp hitem
    obtain ⟨r, hr⟩ := Option.isSome_iff_exists.mp
      ((ofFields_isSome_iff hpower le_rfl declaration).mpr hfaultless)
    have hunique := hext.unique (ofFields_sound not_mem_nil (level_sound _ _) hr).1
    have hr : layout.structLayout m declaration = some r := hr
    rw [hunique]
    simp [extentOf, ofElement, aggregateSize, aggregateAlignment, hfind, hr]
  · obtain ⟨declaration, hfind, rfl⟩ := Option.map_eq_some_iff.mp hitem
    obtain ⟨r, hr⟩ := Option.isSome_iff_exists.mp
      ((ofElements_isSome_iff hpower le_rfl declaration).mpr hfaultless)
    have hunique := hext.unique (ofElements_sound not_mem_nil (level_sound _ _) hr).1
    have hr : layout.arrayLayout m declaration = some r := hr
    rw [hunique]
    simp [extentOf, ofElement, aggregateSize, aggregateAlignment, hfind, hr]

theorem map_extentOf {fields : List StructField}
    (hmap : fields.map (layout.ofField (layout.nested m levels active)) = extents.map some) :
    (fields.map fun field => layout.extentOf m field.partType) = extents.map some := by
  induction fields generalizing extents with
  | nil => exact hmap
  | cons field fields ih =>
    cases extents with
    | nil => simp at hmap
    | cons extent extents =>
      rw [map_cons, map_cons, List.cons.injEq] at hmap
      exact congrArg₂ _ (ofPart_eq_extentOf hpower field.partType hmap.1) (ih hmap.2)

/-- The levels do not matter from the number of the declarations on. -/
theorem ofFields_levels (hlevels : m.declarations ≤ levels) (declaration : StructDecl) :
    layout.ofFields (layout.nested m levels [⟨.structure_, declaration.name⟩])
      declaration.fields = layout.structLayout m declaration := by
  have hsome := ofFields_isSome_iff (m := m) hpower hlevels declaration
  have hsome' := ofFields_isSome_iff (m := m) hpower le_rfl declaration
  rw [← structLayout] at hsome'
  cases hr : layout.structLayout m declaration with
  | none =>
    rw [hr] at hsome'
    exact Option.not_isSome_iff_eq_none.mp fun h => nomatch hsome'.mpr (hsome.mp h)
  | some r =>
    obtain ⟨r', hr'⟩ := Option.isSome_iff_exists.mp
      (hsome.mpr (hsome'.mp (Option.isSome_iff_exists.mpr ⟨r, hr⟩)))
    obtain ⟨extents, hmap, -, -, rfl⟩ := ofFields_eq_some.mp hr
    obtain ⟨extents', hmap', -, -, rfl⟩ := ofFields_eq_some.mp hr'
    have heq : extents' = extents := map_injective_iff.mpr (Option.some_injective _)
      ((map_extentOf hpower hmap').symm.trans (map_extentOf hpower hmap))
    rw [hr', heq]

theorem ofElements_levels (hlevels : m.declarations ≤ levels) (declaration : ArrayDecl) :
    layout.ofElements (layout.nested m levels [⟨.array, declaration.name⟩]) declaration =
      layout.arrayLayout m declaration := by
  have hsome := ofElements_isSome_iff (m := m) hpower hlevels declaration
  have hsome' := ofElements_isSome_iff (m := m) hpower le_rfl declaration
  rw [← arrayLayout] at hsome'
  cases hr : layout.arrayLayout m declaration with
  | none =>
    rw [hr] at hsome'
    exact Option.not_isSome_iff_eq_none.mp fun h => nomatch hsome'.mpr (hsome.mp h)
  | some r =>
    obtain ⟨r', hr'⟩ := Option.isSome_iff_exists.mp
      (hsome.mpr (hsome'.mp (Option.isSome_iff_exists.mpr ⟨r, hr⟩)))
    obtain ⟨-, size, alignment, hext, -, -, rfl⟩ := ofElements_eq_some.mp hr
    obtain ⟨-, size', alignment', hext', -, -, rfl⟩ := ofElements_eq_some.mp hr'
    have heq : some (size', alignment') = some (size, alignment) :=
      (ofPart_eq_extentOf hpower declaration.partType hext').symm.trans
        (ofPart_eq_extentOf hpower declaration.partType hext)
    cases heq
    exact hr'

end

/-! ## The layouts returned -/

/-- The end of the field before an index. -/
def endBefore (fields : List FieldLayout) : Nat → Nat
  | 0 => 0
  | i + 1 => fields[i]?.elim 0 fun field => field.offset + field.size

/-- The fields of a struct, packed in the order of its declaration. -/
structure StructLayout.Packs (layout : DataLayout) (m : Module) (declaration : StructDecl)
    (r : StructLayout) : Prop where
  extents : (declaration.fields.map fun field => layout.extentOf m field.partType) =
    r.fields.map fun field => some (field.size, field.alignment)
  offsets : ∀ (i : Nat) field, r.fields[i]? = some field →
    IsLeast {offset | field.alignment ∣ offset ∧ endBefore r.fields i ≤ offset} field.offset
  disjoint : ∀ (i j : Nat) field other, r.fields[i]? = some field → r.fields[j]? = some other →
    i < j → field.offset + field.size ≤ other.offset
  inside : ∀ field ∈ r.fields, field.offset + field.size ≤ r.size
  noFields : r.fields = [] → r.alignment = 1
  alignment : r.fields ≠ [] →
    IsGreatest {alignment | ∃ field ∈ r.fields, field.alignment = alignment} r.alignment
  size : IsLeast {size | r.alignment ∣ size ∧ endBefore r.fields r.fields.length ≤ size} r.size
  fits : r.size ≤ sizeMax

/-- The elements of an array, at the multiples of its stride. -/
structure ArrayLayout.Packs (layout : DataLayout) (m : Module) (declaration : ArrayDecl)
    (r : ArrayLayout) : Prop where
  element : ∃ size, layout.extentOf m declaration.partType = some (size, r.alignment) ∧
    IsLeast {stride | r.alignment ∣ stride ∧ size ≤ stride} r.stride
  size : r.size = r.stride * declaration.elementCount
  fits : r.size ≤ sizeMax

theorem endBefore_placedFields (extents : List (Nat × Nat)) {i : Nat} (h : i ≤ extents.length) :
    endBefore (placedFields extents) i = finish 0 (extents.take i) := by
  cases i with
  | zero => rfl
  | succ i =>
    have hext : extents[i]? = some (extents.get ⟨i, h⟩) := List.getElem?_eq_getElem h
    rw [endBefore, getElem?_placedFields, hext, finish_take_succ 0 hext]
    rfl

theorem packs_packed (hmap : (declaration.fields.map fun field => layout.extentOf m field.partType)
      = extents.map some) (hpowers : ∀ e ∈ extents, isPowerOfTwo e.2 = true)
    (hfits : (packed extents).size ≤ sizeMax) :
    StructLayout.Packs layout m declaration (packed extents) := by
  have hpos : ∀ e ∈ extents, 0 < e.2 := fun e he => isPowerOfTwo_pos (hpowers e he)
  have hfields : (packed extents).fields = placedFields extents := rfl
  have hlen : (placedFields extents).length = extents.length := by simp [placedFields]
  have hextents : (placedFields extents).map (fun field => (field.size, field.alignment)) =
      extents := by
    refine ext_getElem? fun i => ?_
    rw [List.getElem?_map, getElem?_placedFields]
    cases extents[i]? <;> rfl
  have hfield : ∀ {i : Nat} {field}, (packed extents).fields[i]? = some field → ∃ extent,
      extents[i]? = some extent ∧
        field = ⟨alignUp (finish 0 (extents.take i)) extent.2, extent.1, extent.2⟩ := by
    intro i field h
    rw [hfields, getElem?_placedFields, Option.map_eq_some_iff] at h
    obtain ⟨extent, hext, heq⟩ := h
    exact ⟨extent, hext, heq.symm⟩
  have hmax := maxAlignment_isGreatest 1 extents
  have hpower := isPowerOfTwo_maxAlignment 1 rfl hpowers
  refine ⟨?_, ?_, ?_, ?_, ?_, ?_, ?_, hfits⟩
  · rw [hmap, ← hextents, map_map, hextents]
    rfl
  · intro i field h
    obtain ⟨extent, hext, rfl⟩ := hfield h
    obtain ⟨hlt, -⟩ := List.getElem?_eq_some_iff.mp hext
    rw [hfields, endBefore_placedFields extents hlt.le]
    exact alignUp_isLeast _ (hpos extent (mem_of_getElem? hext))
  · intro i j field other hi hj hij
    obtain ⟨extent, hext, rfl⟩ := hfield hi
    obtain ⟨extent', hext', rfl⟩ := hfield hj
    exact offsets_disjoint hpos 0 hext hext' hij
  · intro field hmem
    obtain ⟨i, hi⟩ := mem_iff_getElem?.mp hmem
    obtain ⟨extent, hext, rfl⟩ := hfield hi
    exact (offsets_inside hpos 0 hext).trans (le_alignUp _ (isPowerOfTwo_pos hpower))
  · intro hnil
    obtain rfl : extents = [] := eq_nil_of_length_eq_zero (by rw [← hlen, ← hfields, hnil]; rfl)
    rfl
  · intro hne
    have halignments : {alignment | ∃ field ∈ (packed extents).fields,
        field.alignment = alignment} = {alignment | ∃ e ∈ extents, e.2 = alignment} := by
      ext alignment
      constructor
      · rintro ⟨field, hmem, rfl⟩
        obtain ⟨i, hi⟩ := mem_iff_getElem?.mp hmem
        obtain ⟨extent, hext, rfl⟩ := hfield hi
        exact ⟨extent, mem_of_getElem? hext, rfl⟩
      · rintro ⟨extent, hmem, rfl⟩
        rw [← hextents, mem_map] at hmem
        obtain ⟨field, hmem, rfl⟩ := hmem
        exact ⟨field, hmem, rfl⟩
    have hne : extents ≠ [] := fun h => hne (by rw [h]; rfl)
    rw [halignments]
    refine ⟨?_, fun alignment hmem => hmax.2 (.inr hmem)⟩
    rcases hmax.1 with hone | hmem
    · -- every alignment is at least 1
      obtain ⟨extent, hmem⟩ := exists_mem_of_ne_nil _ hne
      have hle := hmax.2 (.inr ⟨extent, hmem, rfl⟩)
      exact ⟨extent, hmem, Nat.le_antisymm hle (hone.trans_le (hpos extent hmem))⟩
    · exact hmem
  · rw [hfields, hlen, endBefore_placedFields extents le_rfl, take_length]
    exact alignUp_isLeast _ (isPowerOfTwo_pos hpower)

/-- **A struct or an array has a layout if and only if it reaches no fault**, however many levels
the recursion may go down, and its layout is the packing of its fields or elements. -/
theorem dataLayout_correct (layout : DataLayout) (m : Module)
    (hpower : isPowerOfTwo layout.pointerAlignment = true) :
    (∀ declaration : StructDecl, (∀ levels, m.declarations ≤ levels →
        layout.ofFields (layout.nested m levels [⟨.structure_, declaration.name⟩])
          declaration.fields = layout.structLayout m declaration) ∧
      ((layout.structLayout m declaration).isSome = true ↔
        ¬ layout.Faulty m (.structure_ declaration)) ∧
      ∀ r, layout.structLayout m declaration = some r →
        StructLayout.Packs layout m declaration r) ∧
    (∀ declaration : ArrayDecl, (∀ levels, m.declarations ≤ levels →
        layout.ofElements (layout.nested m levels [⟨.array, declaration.name⟩]) declaration =
          layout.arrayLayout m declaration) ∧
      ((layout.arrayLayout m declaration).isSome = true ↔
        ¬ layout.Faulty m (.array declaration)) ∧
      ∀ r, layout.arrayLayout m declaration = some r →
        ArrayLayout.Packs layout m declaration r) := by
  refine ⟨fun declaration => ⟨fun levels hlevels => ofFields_levels hpower hlevels declaration,
    ofFields_isSome_iff hpower le_rfl declaration, ?_⟩,
    fun declaration => ⟨fun levels hlevels => ofElements_levels hpower hlevels declaration,
    ofElements_isSome_iff hpower le_rfl declaration, ?_⟩⟩
  · intro r hr
    obtain ⟨extents, hmap, hpowers, hfits, rfl⟩ := ofFields_eq_some.mp hr
    exact packs_packed (map_extentOf hpower hmap) hpowers hfits
  intro r hr
  obtain ⟨-, size, alignment, hext, halignment, hfits, rfl⟩ := ofElements_eq_some.mp hr
  exact ⟨⟨size, ofPart_eq_extentOf hpower declaration.partType hext,
    alignUp_isLeast _ (isPowerOfTwo_pos halignment)⟩, rfl, hfits⟩

/-- A struct and an array that contain each other, and a struct with an array of numbers. -/
def nestedModule : Module :=
  { structs := [
      { name := "list", fields := [{ name := "head", type := .i64 },
        { name := "tail", type := .void, aggregate := some ⟨.array, "lists"⟩ }] },
      { name := "record", fields := [{ name := "tag", type := .i8 },
        { name := "body", type := .void, aggregate := some ⟨.array, "numbers"⟩ }] }]
    arrays := [
      { name := "lists", elementType := .void, elementAggregate := some ⟨.structure_, "list"⟩,
        elementCount := 1 },
      { name := "numbers", elementType := .i32, elementCount := 3 }] }

theorem dataLayout_correct_nested :
    (∀ declaration, nestedModule.findStruct "list" = some declaration →
      DataLayout.host.Faulty nestedModule (.structure_ declaration)) ∧
    ∃ declaration r, nestedModule.findStruct "record" = some declaration ∧ r.size = 16 ∧
      StructLayout.Packs DataLayout.host nestedModule declaration r := by
  have h := dataLayout_correct host nestedModule (by decide)
  refine ⟨fun declaration hfind => ?_, _, ⟨16, 4, [⟨0, 1, 1⟩, ⟨4, 12, 4⟩]⟩, rfl, rfl, ?_⟩
  · cases hfind
    by_contra hfault
    exact absurd ((h.1 _).2.1.mpr hfault) (by decide)
  · exact (h.1 _).2.2 _ (by decide)

end

end Raz.Forge
