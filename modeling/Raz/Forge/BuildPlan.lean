import Mathlib.Data.List.Dedup
import Raz.Forge.Fingerprint
import Raz.Lib.Spread

/-!
# The plan of an incremental build

The changes between two snapshots give each function an action and its cache keys. The callers of
what is rebuilt or removed, and theirs in turn, are rebuilt too, and what is rebuilt is kept under
a key of its own that names the callees.

Result: `functionCacheKey_ne_dependencyKey`: no key is of both kinds.
-/

namespace Raz.Forge.Record

open List

/-- The items of a `set`, in its order. -/
def sortedSet (items : List Text) : List Text :=
  items.dedup.mergeSort fun a b => decide (a ≤ b)

theorem mem_sortedSet {items : List Text} {item : Text} : item ∈ sortedSet items ↔ item ∈ items :=
  (mergeSort_perm _ _).mem_iff.trans mem_dedup

theorem nodup_sortedSet (items : List Text) : (sortedSet items).Nodup :=
  (mergeSort_perm _ _).nodup_iff.mpr (nodup_dedup items)

/-! ## Changes -/

inductive FunctionChangeKind
  | added | modified | frontendOnly | removed | unchanged
deriving DecidableEq, Repr

structure FunctionChange where
  name : Text
  kind : FunctionChangeKind
deriving DecidableEq, Repr

/-- The lists are sorted by name: a binary search finds the first item of a name. -/
def IncrementalSnapshot.find (snapshot : IncrementalSnapshot) (name : Text) :
    Option FunctionFingerprint :=
  snapshot.functions.find? (·.name == name)

def IncrementalSnapshot.names (snapshot : IncrementalSnapshot) : List Text :=
  snapshot.functions.map FunctionFingerprint.name

def changeKind (before after : Option FunctionFingerprint) : FunctionChangeKind :=
  match before, after with
  | none, _ => .added
  | some _, none => .removed
  | some old, some new =>
    if old.semanticFingerprint ≠ new.semanticFingerprint then .modified
    else if old.frontendFingerprint ≠ new.frontendFingerprint then .frontendOnly
    else .unchanged

/-- With the functions that are unchanged. -/
def compareIncrementalSnapshots (previous current : IncrementalSnapshot) : List FunctionChange :=
  (sortedSet (previous.names ++ current.names)).map fun name =>
    { name := name, kind := changeKind (previous.find name) (current.find name) }

/-! ## Cache keys -/

inductive ArtifactKind
  | object | machineCode | sourceMap | diagnostics | custom
deriving DecidableEq, Repr

def ArtifactKind.name : ArtifactKind → Text
  | .object => text "object"
  | .machineCode => text "machine-code"
  | .sourceMap => text "source-map"
  | .diagnostics => text "diagnostics"
  | .custom => text "custom"

/-- What stays the same from build to build. -/
structure BuildSettings where
  frontendId : Text
  configuration : Text
  kind : ArtifactKind
deriving DecidableEq, Repr

namespace Hashing

variable (h : Hashing)

def functionKeyMetadata (settings : BuildSettings) (function : FunctionFingerprint)
    (includeFrontendState : Bool) : List Attribute :=
  [ ⟨text "cache.frontend", settings.frontendId⟩
  , ⟨text "cache.configuration", settings.configuration⟩
  , ⟨text "cache.kind", settings.kind.name⟩
  , ⟨text "cache.function", function.name⟩
  , ⟨text "cache.semantic", function.semanticFingerprint⟩ ] ++
    if includeFrontendState then [⟨text "cache.frontend-state", function.frontendFingerprint⟩]
    else []

def buildFunctionCacheKey (settings : BuildSettings) (function : FunctionFingerprint)
    (includeFrontendState : Bool) : Text :=
  h.buildCacheKey
    { name := text "function-cache-key"
      metadata := functionKeyMetadata settings function includeFrontendState }
    (text "forge-function-artifact-v1")
    (if includeFrontendState then text "frontend" else text "semantic")

end Hashing

/-! ## The dependency graph -/

structure FunctionDependencyNode where
  name : Text
  callees : List Text
  callers : List Text
deriving DecidableEq, Repr

def Module.names (m : Module) : List Text := m.functions.map Function.name

/-- The symbol that a `call` names. -/
def Operation.callTarget (operation : Operation) : Option Text :=
  if operation.opcode = text "call" then
    match operation.operands with
    | (64 :: callee) :: _ => some callee
    | _ => none
  else none

/-- The functions of the module that a function calls. -/
def Module.calls (m : Module) (function : Function) : List Text :=
  (function.blocks.flatMap fun block => block.operations.filterMap Operation.callTarget).filter
    (· ∈ m.names)

def Module.dependencyNode (m : Module) (name : Text) : FunctionDependencyNode where
  name := name
  callees := sortedSet ((m.functions.filter (·.name == name)).flatMap m.calls)
  callers := sortedSet ((m.functions.filter (name ∈ m.calls ·)).map Function.name)

abbrev FunctionDependencyGraph := List FunctionDependencyNode

def buildFunctionDependencyGraph (m : Module) : FunctionDependencyGraph :=
  (sortedSet m.names).map m.dependencyNode

def FunctionDependencyGraph.findNode (graph : FunctionDependencyGraph) (name : Text) :
    Option FunctionDependencyNode :=
  graph.find? (·.name == name)

namespace Hashing

variable (h : Hashing)

def dependencyMetadata (original : Text) (node : FunctionDependencyNode)
    (settings : BuildSettings) : List Attribute :=
  [ ⟨text "dependency.original", original⟩
  , ⟨text "dependency.function", node.name⟩
  , ⟨text "dependency.frontend", settings.frontendId⟩
  , ⟨text "dependency.configuration", settings.configuration⟩
  , ⟨text "dependency.kind", settings.kind.name⟩ ] ++
    node.callees.map fun callee => ⟨text "dependency.callee", callee⟩

def dependencyKey (original : Text) (node : FunctionDependencyNode) (settings : BuildSettings) :
    Text :=
  h.buildCacheKey
    { name := text "dependency-cache-key", metadata := dependencyMetadata original node settings }
    (text "forge-dependency-artifact-v1") (text "semantic")

end Hashing

/-! ## The plan -/

inductive BuildAction
  | rebuild | reuse | frontendRefresh | remove
deriving DecidableEq, Repr

def FunctionChangeKind.action : FunctionChangeKind → BuildAction
  | .added | .modified => .rebuild
  | .frontendOnly => .frontendRefresh
  | .removed => .remove
  | .unchanged => .reuse

structure FunctionBuildDecision where
  name : Text
  action : BuildAction
  semanticCacheKey : Text := []
  frontendCacheKey : Text := []
deriving DecidableEq, Repr

structure IncrementalBuildPlan where
  previousSemanticFingerprint : Text
  currentSemanticFingerprint : Text
  functions : List FunctionBuildDecision
deriving DecidableEq, Repr

namespace Hashing

variable (h : Hashing)

/-- The keys are those of the function as it is, or as it was if it is removed. -/
def decision (settings : BuildSettings) (previous current : IncrementalSnapshot)
    (change : FunctionChange) : FunctionBuildDecision :=
  match (current.find change.name).or (previous.find change.name) with
  | some function =>
    { name := change.name
      action := change.kind.action
      semanticCacheKey := h.buildFunctionCacheKey settings function false
      frontendCacheKey := h.buildFunctionCacheKey settings function true }
  | none => { name := change.name, action := change.kind.action }

def buildIncrementalBuildPlan (settings : BuildSettings) (previous current : IncrementalSnapshot) :
    IncrementalBuildPlan where
  previousSemanticFingerprint := previous.semanticFingerprint
  currentSemanticFingerprint := current.semanticFingerprint
  functions := (compareIncrementalSnapshots previous current).map
    (h.decision settings previous current)

end Hashing

/-! ## Invalidation -/

def FunctionDependencyGraph.callersOf (graph : FunctionDependencyGraph) (name : Text) :
    List Text :=
  match graph.findNode name with
  | some node => node.callers
  | none => []

/-- The names from which the invalidation starts. -/
def IncrementalBuildPlan.invalid (plan : IncrementalBuildPlan) : List Text :=
  (plan.functions.filter fun decision =>
    decision.action = .rebuild ∨ decision.action = .remove).map FunctionBuildDecision.name

/-- The callers are put into the queue that are not yet invalidated. -/
def IncrementalBuildPlan.invalidated (plan : IncrementalBuildPlan)
    (graph : FunctionDependencyGraph) : List Text :=
  Spread.spread graph.callersOf (plan.invalid.length + graph.length) plan.invalid plan.invalid

def FunctionBuildDecision.invalidate (decision : FunctionBuildDecision) (names : List Text) :
    FunctionBuildDecision :=
  if decision.name ∈ names ∧ decision.action ≠ .remove then { decision with action := .rebuild }
  else decision

namespace Hashing

variable (h : Hashing)

/-- What is rebuilt is kept under a key that names its callees. -/
def rekey (settings : BuildSettings) (graph : FunctionDependencyGraph)
    (decision : FunctionBuildDecision) : FunctionBuildDecision :=
  if decision.action = .rebuild then
    match graph.findNode decision.name with
    | some node =>
      { decision with semanticCacheKey := h.dependencyKey decision.semanticCacheKey node settings }
    | none => decision
  else decision

def propagateDependencyInvalidations (settings : BuildSettings) (plan : IncrementalBuildPlan)
    (graph : FunctionDependencyGraph) : IncrementalBuildPlan :=
  { plan with
    functions := plan.functions.map fun decision =>
      h.rekey settings graph (decision.invalidate (plan.invalidated graph)) }

end Hashing

/-! ## What a key determines -/

/-- The values of the attributes of a name. -/
def valuesOf (name : Text) (items : List Attribute) : List Text :=
  (items.filter (·.name == name)).map Attribute.value

theorem valuesOf_perm {items others : List Attribute} (h : items.Perm others) (name : Text) :
    (valuesOf name items).Perm (valuesOf name others) := (h.filter _).map _

theorem valuesOf_append (name : Text) (items others : List Attribute) :
    valuesOf name (items ++ others) = valuesOf name items ++ valuesOf name others := by
  unfold valuesOf
  rw [filter_append, map_append]

theorem valuesOf_map (name : Text) (values : List Text) :
    valuesOf name (values.map fun value => ⟨name, value⟩) = values := by
  unfold valuesOf
  rw [filter_eq_self.mpr, map_map]
  · exact map_id values
  · intro item hitem
    obtain ⟨value, _, rfl⟩ := mem_map.mp hitem
    exact beq_self_eq_true name

theorem valuesOf_map_ne {name other : Text} (h : (other == name) = false) (values : List Text) :
    valuesOf name (values.map fun value => ⟨other, value⟩) = [] := by
  unfold valuesOf
  rw [filter_eq_nil_iff.mpr]
  · rfl
  · intro item hitem
    obtain ⟨value, _, rfl⟩ := mem_map.mp hitem
    exact fun heq => Bool.noConfusion (h.symm.trans heq)

section
variable {h : Hashing} {settings : BuildSettings}

/-- The key of a function determines its name and its semantic fingerprint. -/
theorem functionCacheKey_inj {function other : FunctionFingerprint}
    (heq : h.buildFunctionCacheKey settings function false =
      h.buildFunctionCacheKey settings other false) :
    function.name = other.name ∧ function.semanticFingerprint = other.semanticFingerprint := by
  have hperm := h.buildCacheKey_inj heq
  have hname : [function.name].Perm [other.name] := valuesOf_perm hperm (text "cache.function")
  have hsemantic : [function.semanticFingerprint].Perm [other.semanticFingerprint] :=
    valuesOf_perm hperm (text "cache.semantic")
  exact ⟨(List.cons.inj (perm_singleton.mp hname)).1,
    (List.cons.inj (perm_singleton.mp hsemantic)).1⟩

theorem valuesOf_callee (original : Text) (node : FunctionDependencyNode) :
    valuesOf (text "dependency.callee") (Hashing.dependencyMetadata original node settings) =
      node.callees :=
  (valuesOf_append _ _ _).trans (valuesOf_map _ node.callees)

theorem valuesOf_original (original : Text) (node : FunctionDependencyNode) :
    valuesOf (text "dependency.original") (Hashing.dependencyMetadata original node settings) =
      [original] :=
  (valuesOf_append _ _ _).trans
    (congrArg ([original] ++ ·) (valuesOf_map_ne (by decide) node.callees))

theorem valuesOf_function (original : Text) (node : FunctionDependencyNode) :
    valuesOf (text "dependency.function") (Hashing.dependencyMetadata original node settings) =
      [node.name] :=
  (valuesOf_append _ _ _).trans
    (congrArg ([node.name] ++ ·) (valuesOf_map_ne (by decide) node.callees))

/-- The key of an artifact determines the key it is made from, the function and its callees. -/
theorem dependencyKey_inj {original base : Text} {node other : FunctionDependencyNode}
    (heq : h.dependencyKey original node settings = h.dependencyKey base other settings) :
    original = base ∧ node.name = other.name ∧ ∀ callee, callee ∈ node.callees ↔
      callee ∈ other.callees := by
  have hperm := h.buildCacheKey_inj heq
  have horiginal := valuesOf_perm hperm (text "dependency.original")
  have hname := valuesOf_perm hperm (text "dependency.function")
  have hcallees := valuesOf_perm hperm (text "dependency.callee")
  rw [valuesOf_original, valuesOf_original] at horiginal
  rw [valuesOf_function, valuesOf_function] at hname
  rw [valuesOf_callee, valuesOf_callee] at hcallees
  exact ⟨(List.cons.inj (perm_singleton.mp horiginal)).1,
    (List.cons.inj (perm_singleton.mp hname)).1, fun callee => hcallees.mem_iff⟩

/-- No key is that of a function and that of an artifact that was rebuilt. -/
theorem functionCacheKey_ne_dependencyKey {function : FunctionFingerprint} {original : Text}
    {node : FunctionDependencyNode} {includeFrontendState : Bool} :
    h.buildFunctionCacheKey settings function includeFrontendState ≠
      h.dependencyKey original node settings :=
  fun heq => absurd (h.buildCacheKey_frontend heq) (by decide)

end

/-! ## What is invalidated -/

/-- One function calls another. -/
def Module.Calls (m : Module) (caller callee : Text) : Prop :=
  ∃ function ∈ m.functions, function.name = caller ∧ callee ∈ m.calls function

theorem Module.mem_names_of_calls {m : Module} {function : Function} {callee : Text}
    (h : callee ∈ m.calls function) : callee ∈ m.names :=
  of_decide_eq_true (mem_filter.mp h).2

theorem findNode_graph {m : Module} {name : Text} (h : name ∈ m.names) :
    (buildFunctionDependencyGraph m).findNode name = some (m.dependencyNode name) := by
  have hmem := mem_sortedSet.mpr h
  unfold FunctionDependencyGraph.findNode buildFunctionDependencyGraph
  rw [List.find?_map]
  have hfind : (sortedSet m.names).find? ((fun node : FunctionDependencyNode => node.name == name) ∘
      m.dependencyNode) = some name := by
    cases hfind : (sortedSet m.names).find? ((fun node : FunctionDependencyNode =>
        node.name == name) ∘ m.dependencyNode) with
    | none => exact absurd (beq_self_eq_true name) (List.find?_eq_none.mp hfind name hmem)
    | some other =>
      have hname := List.find?_some hfind
      exact congrArg some (eq_of_beq hname)
  rw [hfind]
  rfl

theorem mem_graph_callers {m : Module} {caller callee : Text} :
    caller ∈ (buildFunctionDependencyGraph m).callersOf callee ↔ m.Calls caller callee := by
  have hcallers : caller ∈ (m.dependencyNode callee).callers ↔ m.Calls caller callee := by
    refine mem_sortedSet.trans ⟨?_, ?_⟩
    · intro h
      obtain ⟨function, hfun, rfl⟩ := mem_map.mp h
      obtain ⟨hmem, hcalls⟩ := mem_filter.mp hfun
      exact ⟨function, hmem, rfl, of_decide_eq_true hcalls⟩
    · rintro ⟨function, hmem, rfl, hcalls⟩
      exact mem_map.mpr ⟨function, mem_filter.mpr ⟨hmem, decide_eq_true hcalls⟩, rfl⟩
  unfold FunctionDependencyGraph.callersOf
  by_cases hname : callee ∈ m.names
  · rw [findNode_graph hname]
    exact hcallers
  -- only functions of the module are called
  refine ⟨fun h => ?_, fun ⟨function, _, _, hcalls⟩ => absurd (m.mem_names_of_calls hcalls) hname⟩
  split at h
  · rename_i node hnode
    obtain ⟨name, hmem, rfl⟩ := mem_map.mp (List.mem_of_find?_eq_some hnode)
    have heq := List.find?_some hnode
    exact absurd (eq_of_beq heq ▸ mem_sortedSet.mp hmem) hname
  · exact absurd h not_mem_nil

theorem length_graph (m : Module) :
    (buildFunctionDependencyGraph m).length = m.names.toFinset.card := by
  unfold buildFunctionDependencyGraph sortedSet
  rw [length_map, length_mergeSort, card_toFinset]

/-- What calls, directly or through others, what is rebuilt or removed is invalidated. -/
theorem mem_invalidated {m : Module} {plan : IncrementalBuildPlan} {caller callee : Text}
    (hcallee : callee ∈ plan.invalid) (h : Relation.ReflTransGen m.Calls caller callee) :
    caller ∈ plan.invalidated (buildFunctionDependencyGraph m) := by
  refine Spread.mem_spread_of_reaches m.names.toFinset ?_ ?_ ?_ hcallee ?_
  · intro item
    unfold FunctionDependencyGraph.callersOf
    split
    · rename_i node hnode
      obtain ⟨name, _, rfl⟩ := mem_map.mp (List.mem_of_find?_eq_some hnode)
      exact nodup_sortedSet _
    · exact nodup_nil
  · intro item other hother
    obtain ⟨function, hmem, rfl, _⟩ := mem_graph_callers.mp hother
    exact mem_toFinset.mpr (mem_map_of_mem hmem)
  · rw [length_graph]
  · exact Relation.ReflTransGen.mono (fun _ _ hab => mem_graph_callers.mpr hab) _ _ h.swap

end Raz.Forge.Record
