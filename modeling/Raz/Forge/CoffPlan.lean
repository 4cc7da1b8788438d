import Mathlib.Data.List.Nodup
import Mathlib.Data.List.Forall2
import Raz.Forge.Coff

/-!
# What a COFF object says

An object declares symbols, has code and refers to symbols by their names: the `Plan` of an image.
The writer refers to them by their indices.

Result: `Realizes.distinct`: no name is declared twice.
-/

namespace Raz.Forge.Coff

open Outcome List

variable {symbols : List Symbol} {symbol : UInt32} {name : Text} {result : Emission}
  {relocation : ExternalRelocation} {globals : List EncodedGlobal}

/-! ## Plans -/

structure Declaration where
  name : Text
  value : Nat
  sectionNumber : Int
  storageClass : UInt8
deriving DecidableEq, Repr

/-- A place in the code that waits for the address of a name. -/
structure Reference where
  offset : Nat
  name : Text
  type : UInt16
deriving DecidableEq, Repr

structure Plan where
  code : List UInt8
  declarations : List Declaration
  references : List Reference := []
deriving DecidableEq, Repr

/-- What a relocation of the image asks for: other code at a place, names and references. -/
structure Request where
  start : Nat
  code : List UInt8
  names : List Text
  references : List Reference
deriving DecidableEq, Repr

local instance : LawfulBEq Text := inferInstance

/-- A name that is not declared is one of another object. -/
def declare (declarations : List Declaration) (name : Text) : List Declaration :=
  if name ∈ declarations.map Declaration.name then declarations
  else declarations ++ [⟨name, 0, 0, storageExternal⟩]

def Plan.apply (plan : Plan) (request : Request) : Plan where
  code := overwrite plan.code request.start request.code
  declarations := request.names.foldl declare plan.declarations
  references := plan.references ++ request.references

def externalRequest (relocation : ExternalRelocation) : Request where
  start := relocation.addressOffset - 2
  code := thunkCode
  names := [relocation.symbol]
  references := [⟨relocation.addressOffset - 2 + 1, relocation.symbol, relocRel32⟩]

/-- A global by its address, of another object or of this one. -/
def globalRequest (addressOffset : Nat) (name : Text) (names : List Text) : Request where
  start := addressOffset - 2
  code := globalCode
  names := names
  references := [⟨addressOffset - 2 + 3, name, relocRel32⟩]

def tlsRequest (addressOffset : Nat) (name : Text) (names : List Text) : Request where
  start := addressOffset
  code := tlsCode
  names := names ++ [tlsIndexName]
  references := [⟨addressOffset + 2, tlsIndexName, relocRel32⟩,
    ⟨addressOffset + 22, name, relocSecrel⟩]

def globalName (globals : List EncodedGlobal) (dataSection : DataSection) (dataOffset : Nat) :
    Text :=
  ((findGlobal globals dataSection dataOffset).map EncodedGlobal.name).getD []

def EncodedModuleImage.requests (image : EncodedModuleImage) : List Request :=
  image.externals.map externalRequest ++
  image.externalGlobals.map (fun relocation =>
    globalRequest relocation.addressOffset relocation.symbol [relocation.symbol]) ++
  image.globalRelocations.map (fun relocation =>
    globalRequest relocation.addressOffset
      (globalName image.globals relocation.dataSection relocation.dataOffset) []) ++
  image.externalTls.map (fun relocation =>
    tlsRequest relocation.addressOffset relocation.symbol [relocation.symbol]) ++
  image.tlsRelocations.map fun relocation =>
    tlsRequest relocation.addressOffset (globalName image.globals .tls relocation.dataOffset) []

def globalSection (hasTlsSection : Bool) : DataSection → Int
  | .readOnly => 2
  | .writable => 3
  | .tls => if hasTlsSection then 4 else 0

/-- The functions and the globals of the image. -/
def EncodedModuleImage.definitions (image : EncodedModuleImage) : List Declaration :=
  image.entries.map (fun entry => ⟨entry.1, entry.2, 1, storageExternal⟩) ++
  image.globals.map fun global =>
    { name := global.name
      value := global.dataOffset
      sectionNumber := globalSection image.hasTlsSection global.dataSection
      storageClass := if global.isInternal then storageStatic else storageExternal }

def EncodedModuleImage.plan (image : EncodedModuleImage) : Plan :=
  image.requests.foldl Plan.apply { code := image.code, declarations := image.definitions }

/-! ## Emissions -/

def Symbol.declaration (symbol : Symbol) : Declaration where
  name := symbol.name
  value := symbol.value.toNat
  sectionNumber := Codec.signed 16 symbol.sectionNumber.toNat
  storageClass := symbol.storageClass

/-- The index is that of a symbol with the name, cast to the field of an index. -/
def Names (symbols : List Symbol) (symbol : UInt32) (name : Text) : Prop :=
  ∃ index found, symbol = UInt32.ofNat index ∧ symbols[index]? = some found ∧ found.name = name

structure Refers (symbols : List Symbol) (relocation : Relocation) (reference : Reference) :
    Prop where
  offset : relocation.offset.toNat = reference.offset
  name : Names symbols relocation.symbol reference.name
  type : relocation.type = reference.type

structure Realizes (e : Emission) (plan : Plan) : Prop where
  code : e.code = plan.code
  declarations : e.symbols.map Symbol.declaration = plan.declarations
  references : List.Forall₂ (Refers e.symbols) e.relocations plan.references
  distinct : (e.symbols.map Symbol.name).Nodup

/-! ## Symbols -/

theorem toNat_of_checkedU32 {value : Nat} {converted : UInt32}
    (h : checkedU32 value = some converted) : converted.toNat = value := by
  unfold checkedU32 at h
  split at h
  · rename_i hle
    cases h
    exact Nat.mod_eq_of_lt (Nat.lt_succ_of_le hle)
  · cases h

theorem Names.append (h : Names symbols symbol name) (more : List Symbol) :
    Names (symbols ++ more) symbol name := by
  obtain ⟨index, found, rfl, hfound, hname⟩ := h
  obtain ⟨hlt, _⟩ := List.getElem?_eq_some_iff.mp hfound
  exact ⟨index, found, rfl, (List.getElem?_append_left hlt).trans hfound, hname⟩

theorem symbolIndex_sound {index : Nat} (h : symbolIndex symbols name = some index) :
    Names symbols (UInt32.ofNat index) name := by
  obtain ⟨hlt, hfound, _⟩ := List.findIdx?_eq_some_iff_getElem.mp h
  exact ⟨index, symbols[index], rfl, List.getElem?_eq_getElem hlt, eq_of_beq hfound⟩

theorem symbolIndex_complete (h : symbolIndex symbols name = none) :
    name ∉ symbols.map Symbol.name := by
  intro hmem
  obtain ⟨symbol, hsym, rfl⟩ := mem_map.mp hmem
  exact Bool.false_ne_true ((List.findIdx?_eq_none_iff.mp h symbol hsym).symm.trans
    (beq_self_eq_true symbol.name))

theorem nodup_append_name {symbol : Symbol} (h : (symbols.map Symbol.name).Nodup)
    (hnew : symbolIndex symbols symbol.name = none) :
    ((symbols ++ [symbol]).map Symbol.name).Nodup := by
  rw [map_append, map_singleton]
  refine nodup_append'.mpr ⟨h, nodup_singleton _, ?_⟩
  exact disjoint_singleton.mpr (symbolIndex_complete hnew)

theorem addDefinedSymbol_spec {result : List Symbol} {symbol : Symbol}
    (h : addDefinedSymbol symbols symbol = .ok result) (hnodup : (symbols.map Symbol.name).Nodup) :
    result = symbols ++ [symbol] ∧ (result.map Symbol.name).Nodup := by
  unfold addDefinedSymbol at h
  split at h
  · cases h
  · rename_i hnew
    cases h
    exact ⟨rfl, nodup_append_name hnodup hnew⟩

theorem foldlM_definitions {ι : Type} {add : List Symbol → ι → Except Failure (List Symbol)}
    {declaration : ι → Declaration} {items : List ι} {result : List Symbol}
    (h : items.foldlM add symbols = .ok result) (hadd : ∀ {symbols item result}, add symbols item =
      .ok result → (symbols.map Symbol.name).Nodup → (result.map Symbol.name).Nodup ∧ result.map
      Symbol.declaration = symbols.map Symbol.declaration ++ [declaration item])
    (hnodup : (symbols.map Symbol.name).Nodup) :
    (result.map Symbol.name).Nodup ∧ result.map Symbol.declaration =
      symbols.map Symbol.declaration ++ items.map declaration := by
  induction items generalizing symbols with
  | nil =>
    cases h
    exact ⟨hnodup, (append_nil _).symm⟩
  | cons item items ih =>
    rw [foldlM_cons] at h
    obtain ⟨next, hstep, hrest⟩ := bind_ok h
    obtain ⟨hnext, hdeclared⟩ := hadd hstep hnodup
    obtain ⟨hres, hdeclarations⟩ := ih hrest hnext
    refine ⟨hres, ?_⟩
    rw [hdeclarations, hdeclared, append_assoc]
    rfl

theorem addEntry_spec {result : List Symbol} {entry : Text × Nat}
    (h : addEntry symbols entry = .ok result) (hnodup : (symbols.map Symbol.name).Nodup) :
    (result.map Symbol.name).Nodup ∧ result.map Symbol.declaration =
      symbols.map Symbol.declaration ++ [⟨entry.1, entry.2, 1, storageExternal⟩] := by
  unfold addEntry at h
  split at h
  · cases h
  rename_i value hval
  obtain ⟨rfl, hres⟩ := addDefinedSymbol_spec h hnodup
  refine ⟨hres, ?_⟩
  rw [map_append, ← toNat_of_checkedU32 hval]
  rfl

theorem addGlobal_spec {hasTlsSection : Bool} {result : List Symbol} {global : EncodedGlobal}
    (h : addGlobal hasTlsSection symbols global = .ok result)
    (hnodup : (symbols.map Symbol.name).Nodup) :
    (result.map Symbol.name).Nodup ∧ result.map Symbol.declaration =
      symbols.map Symbol.declaration ++ [
        { name := global.name
          value := global.dataOffset
          sectionNumber := globalSection hasTlsSection global.dataSection
          storageClass := if global.isInternal then storageStatic else storageExternal }] := by
  unfold addGlobal at h
  split at h
  · cases h
  rename_i value hval
  obtain ⟨rfl, hres⟩ := addDefinedSymbol_spec h hnodup
  have hnum : Codec.signed 16 (sectionNumber hasTlsSection global.dataSection).toNat =
      globalSection hasTlsSection global.dataSection := by
    cases hasTlsSection <;> cases global.dataSection <;> rfl
  refine ⟨hres, ?_⟩
  rw [map_append, ← toNat_of_checkedU32 hval, ← hnum]
  rfl

/-! ## Requests -/

section

variable {e : Emission} {plan : Plan} (h : Realizes e plan)

include h

theorem Realizes.rewrite (start : Nat) (code : List UInt8) :
    Realizes { e with code := overwrite e.code start code }
      { plan with code := overwrite plan.code start code } :=
  ⟨congrArg (overwrite · start code) h.code, h.declarations, h.references, h.distinct⟩

theorem Realizes.names : e.symbols.map Symbol.name = plan.declarations.map Declaration.name := by
  rw [← h.declarations, map_map]
  rfl

/-- The index that the writer gets is that of the name, which is declared from then on. -/
theorem Realizes.require (name : Text) :
    Realizes (requireExternal e name).2
        { plan with declarations := declare plan.declarations name } ∧
      Names (requireExternal e name).2.symbols (requireExternal e name).1 name := by
  unfold requireExternal declare
  split
  · rename_i index hidx
    have hfound := symbolIndex_sound hidx
    have hmem : name ∈ plan.declarations.map Declaration.name := by
      obtain ⟨_, found, _, hget, rfl⟩ := hfound
      exact h.names ▸ mem_map_of_mem (mem_of_getElem? hget)
    rw [if_pos hmem]
    exact ⟨h, hfound⟩
  · rename_i hnew
    have hmem : name ∉ plan.declarations.map Declaration.name := h.names ▸ symbolIndex_complete hnew
    rw [if_neg hmem]
    refine ⟨⟨h.code, ?_, ?_, nodup_append_name h.distinct hnew⟩, ?_⟩
    · change (e.symbols ++ [_]).map Symbol.declaration = _
      rw [map_append, h.declarations]
      rfl
    · exact h.references.imp fun _ _ hrefers =>
        ⟨hrefers.offset, hrefers.name.append _, hrefers.type⟩
    · exact ⟨e.symbols.length, _, rfl, List.getElem?_concat_length, rfl⟩

end

theorem Names.require {e : Emission} (h : Names e.symbols symbol name) (other : Text) :
    Names (requireExternal e other).2.symbols symbol name := by
  unfold requireExternal
  split
  · exact h
  · exact h.append _

theorem Realizes.push {e : Emission} {plan : Plan} (h : Realizes e plan) {offset : Nat}
    {type : UInt16} (hname : Names e.symbols symbol name)
    (hpush : pushRelocation e offset symbol type = some result) :
    Realizes result
        { plan with references := plan.references ++ [⟨offset, name, type⟩] } ∧
      result.symbols = e.symbols := by
  unfold pushRelocation at hpush
  cases hconverted : checkedU32 offset with
  | none =>
    rw [hconverted] at hpush
    cases hpush
  | some converted =>
    rw [hconverted] at hpush
    cases hpush
    have hrefers : Refers e.symbols ⟨converted, symbol, type⟩ ⟨offset, name, type⟩ :=
      ⟨toNat_of_checkedU32 hconverted, hname, rfl⟩
    exact ⟨⟨h.code, h.declarations, rel_append h.references (.cons hrefers .nil), h.distinct⟩, rfl⟩

theorem addExternal_realizes {e : Emission} {plan : Plan}
    (h : addExternal e relocation = .ok result) (hplan : Realizes e plan) :
    Realizes result (plan.apply (externalRequest relocation)) := by
  unfold addExternal at h
  split at h
  · cases h
  obtain ⟨hrequired, hname⟩ :=
    (hplan.rewrite (relocation.addressOffset - 2) thunkCode).require relocation.symbol
  dsimp only at h
  split at h
  · cases h
  · rename_i pushed hpush
    cases h
    exact (hrequired.push hname hpush).1

theorem rewriteGlobal_realizes {e : Emission} {plan : Plan} {addressOffset : Nat}
    (h : rewriteGlobal e addressOffset symbol = some result) (hplan : Realizes e plan)
    (hname : Names e.symbols symbol name) :
    Realizes result (plan.apply (globalRequest addressOffset name [])) := by
  unfold rewriteGlobal at h
  split at h
  · cases h
  · exact ((hplan.rewrite _ _).push hname h).1

theorem addExternalGlobal_realizes {e : Emission} {plan : Plan}
    (h : addExternalGlobal e relocation = .ok result) (hplan : Realizes e plan) :
    Realizes result (plan.apply
      (globalRequest relocation.addressOffset relocation.symbol [relocation.symbol])) := by
  obtain ⟨hrequired, hname⟩ := hplan.require relocation.symbol
  unfold addExternalGlobal at h
  dsimp only at h
  split at h
  · cases h
  · rename_i rewritten hrewrite
    cases h
    exact rewriteGlobal_realizes hrewrite hrequired hname

/-- A global of the image is found by its section and its offset, and then by its name. -/
theorem globalName_eq {dataSection : DataSection} {dataOffset : Nat} {global : EncodedGlobal}
    (h : findGlobal globals dataSection dataOffset = some global) :
    globalName globals dataSection dataOffset = global.name := by
  unfold globalName
  rw [h]
  rfl

theorem addGlobalRelocation_realizes {e : Emission} {plan : Plan} {relocation : GlobalRelocation}
    (h : addGlobalRelocation globals e relocation = .ok result) (hplan : Realizes e plan) :
    Realizes result (plan.apply (globalRequest relocation.addressOffset
      (globalName globals relocation.dataSection relocation.dataOffset) [])) := by
  unfold addGlobalRelocation at h
  dsimp only at h
  split at h
  · cases h
  rename_i rewritten hrewritten
  cases h
  obtain ⟨global, hglobal, hrewritten⟩ := Option.bind_eq_some_iff.mp hrewritten
  obtain ⟨index, hidx, hrewrite⟩ := Option.bind_eq_some_iff.mp hrewritten
  rw [globalName_eq hglobal]
  exact rewriteGlobal_realizes hrewrite hplan (symbolIndex_sound hidx)

theorem rewriteTls_realizes {e : Emission} {plan : Plan} {addressOffset : Nat}
    (h : rewriteTls e addressOffset symbol = some result) (hplan : Realizes e plan)
    (hname : Names e.symbols symbol name) :
    Realizes result (plan.apply (tlsRequest addressOffset name [])) := by
  unfold rewriteTls at h
  split at h
  · cases h
  obtain ⟨hrequired, hidx⟩ := (hplan.rewrite addressOffset tlsCode).require tlsIndexName
  obtain ⟨first, hfirst, hsecond⟩ := Option.bind_eq_some_iff.mp h
  obtain ⟨hpushed, hsyms⟩ := hrequired.push hidx hfirst
  have hkept : Names first.symbols symbol name := by
    rw [hsyms]
    exact Names.require (e := { e with code := overwrite e.code addressOffset tlsCode }) hname _
  have hres := (hpushed.push hkept hsecond).1
  rw [append_assoc] at hres
  exact hres

theorem addExternalTls_realizes {e : Emission} {plan : Plan}
    (h : addExternalTls e relocation = .ok result) (hplan : Realizes e plan) :
    Realizes result (plan.apply
      (tlsRequest relocation.addressOffset relocation.symbol [relocation.symbol])) := by
  obtain ⟨hrequired, hname⟩ := hplan.require relocation.symbol
  unfold addExternalTls at h
  dsimp only at h
  split at h
  · cases h
  · rename_i rewritten hrewrite
    cases h
    exact rewriteTls_realizes hrewrite hrequired hname

theorem addTlsRelocation_realizes {e : Emission} {plan : Plan} {relocation : GlobalRelocation}
    (h : addTlsRelocation globals e relocation = .ok result) (hplan : Realizes e plan) :
    Realizes result (plan.apply (tlsRequest relocation.addressOffset
      (globalName globals .tls relocation.dataOffset) [])) := by
  unfold addTlsRelocation at h
  dsimp only at h
  split at h
  · cases h
  rename_i rewritten hrewritten
  cases h
  obtain ⟨global, hglobal, hrewritten⟩ := Option.bind_eq_some_iff.mp hrewritten
  obtain ⟨index, hidx, hrewrite⟩ := Option.bind_eq_some_iff.mp hrewritten
  rw [globalName_eq hglobal]
  exact rewriteTls_realizes hrewrite hplan (symbolIndex_sound hidx)

/-! ## The emission -/

theorem foldlM_realizes {ι : Type} {add : Emission → ι → Except Failure Emission}
    {request : ι → Request} {items : List ι} {e : Emission} {plan : Plan}
    (h : items.foldlM add e = .ok result) (hadd : ∀ {e result plan item}, add e item = .ok result →
      Realizes e plan → Realizes result (plan.apply (request item))) (hplan : Realizes e plan) :
    Realizes result ((items.map request).foldl Plan.apply plan) := by
  induction items generalizing e plan with
  | nil =>
    cases h
    exact hplan
  | cons item items ih =>
    rw [foldlM_cons] at h
    obtain ⟨next, hstep, hrest⟩ := bind_ok h
    exact ih hrest (hadd hstep hplan)

theorem prepare_realizes {image : EncodedModuleImage} {e : Emission} (h : prepare image = .ok e) :
    Realizes e image.plan := by
  unfold prepare at h
  obtain ⟨entries, hentries, h⟩ := bind_ok h
  obtain ⟨globals, hglobals, h⟩ := bind_ok h
  obtain ⟨e1, hexternals, h⟩ := bind_ok h
  obtain ⟨e2, hexternalGlobals, h⟩ := bind_ok h
  obtain ⟨e3, hglobalRelocations, h⟩ := bind_ok h
  obtain ⟨e4, hexternalTls, htls⟩ := bind_ok h
  obtain ⟨hnodup, hdeclared⟩ := foldlM_definitions hentries addEntry_spec nodup_nil
  obtain ⟨hdist, hdefinitions⟩ := foldlM_definitions hglobals addGlobal_spec hnodup
  rw [hdeclared] at hdefinitions
  have hstart : Realizes { code := image.code, symbols := globals }
      { code := image.code, declarations := image.definitions } :=
    ⟨rfl, hdefinitions, .nil, hdist⟩
  have h1 := foldlM_realizes hexternals addExternal_realizes hstart
  have h2 := foldlM_realizes hexternalGlobals addExternalGlobal_realizes h1
  have h3 := foldlM_realizes hglobalRelocations addGlobalRelocation_realizes h2
  have h4 := foldlM_realizes hexternalTls addExternalTls_realizes h3
  have h5 := foldlM_realizes htls addTlsRelocation_realizes h4
  unfold EncodedModuleImage.plan EncodedModuleImage.requests
  rw [foldl_append, foldl_append, foldl_append, foldl_append]
  exact h5

end Raz.Forge.Coff
