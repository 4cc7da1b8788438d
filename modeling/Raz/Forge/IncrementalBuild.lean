import Mathlib.Logic.Function.Basic
import Raz.Forge.BuildPlan

/-!
# Incremental builds with one artifact cache

A build makes the plan from the snapshot of the build before, executes it against the cache and
puts the artifacts of all functions together. The threads of a build work on keys of their own, so
an order of the decisions stands for any interleaving of them.

What is rebuilt is stored under another key than the one that reuse and removal look for, and the
key names the callees but not their texts. A history of builds therefore gives what clean builds
give as long as no build needs an entry of the first kind and none meets one of the second.

`Builder.Correct` says what is wanted of a history, `Builder.Allowed` what a build may meet.
-/

namespace Raz.Forge.Record

/-! ## The cache -/

abbrev ArtifactCache := Text → Option (List UInt8)

def ArtifactCache.empty : ArtifactCache := fun _ => none

def ArtifactCache.contains (cache : ArtifactCache) (key : Text) : Bool := (cache key).isSome

def ArtifactCache.store (cache : ArtifactCache) (key : Text) (bytes : List UInt8) :
    ArtifactCache := Function.update cache key (some bytes)

def ArtifactCache.erase (cache : ArtifactCache) (key : Text) : Bool × ArtifactCache :=
  (cache.contains key, Function.update cache key none)

/-- What a build looks up: nothing without a key. -/
def ArtifactCache.lookup (cache : ArtifactCache) (key : Text) : Option (List UInt8) :=
  if key = [] then none else cache key

/-- What a build keeps: nothing without a key. -/
def ArtifactCache.keep (cache : ArtifactCache) (key : Text) (bytes : List UInt8) : ArtifactCache :=
  if key = [] then cache else cache.store key bytes

/-! ## Executing a plan -/

structure FunctionBuildResult where
  name : Text
  action : BuildAction
  cacheHit : Bool := false
  succeeded : Bool
  artifactBytes : Nat := 0
  message : String
deriving DecidableEq, Repr

structure BuildExecutionSummary where
  cacheHits : Nat
  cacheMisses : Nat
  rebuilt : Nat
  reused : Nat
  frontendRefreshed : Nat
  removed : Nat
  failed : Nat
  artifactBytes : Nat
  functions : List FunctionBuildResult
deriving DecidableEq, Repr

/-- A decision is made with a cache, and leaves one. -/
abbrev Decide := ArtifactCache → FunctionBuildDecision → FunctionBuildResult × ArtifactCache

def eraseEntry : Decide := fun cache decision =>
  let (removedSemantic, cache) :=
    if decision.semanticCacheKey = [] then (true, cache) else cache.erase decision.semanticCacheKey
  let (removedFrontend, cache) :=
    if decision.frontendCacheKey = [] ∨ decision.frontendCacheKey = decision.semanticCacheKey then
      (true, cache)
    else cache.erase decision.frontendCacheKey
  ( { name := decision.name
      action := decision.action
      succeeded := removedSemantic && removedFrontend
      message := if removedSemantic && removedFrontend then "removed" else "cache entry absent" }
  , cache )

def FunctionBuildDecision.result (decision : FunctionBuildDecision) (succeeded : Bool)
    (message : String) : FunctionBuildResult where
  name := decision.name
  action := decision.action
  succeeded := succeeded
  message := message

/-- What a thread does with a decision. -/
def makeArtifact (compile : Text → List UInt8) : Decide := fun cache decision =>
  if decision.action = .frontendRefresh then
    (decision.result true "frontend state refreshed", cache)
  else
    match cache.lookup decision.semanticCacheKey with
    | some bytes =>
      ( { decision.result true "cache hit" with cacheHit := true, artifactBytes := bytes.length }
      , cache )
    | none =>
      if decision.action = .reuse then
        (decision.result false "required reusable artifact is missing", cache)
      else
        ( { decision.result true "rebuilt" with
            artifactBytes := (compile decision.name).length }
        , cache.keep decision.semanticCacheKey (compile decision.name) )

def decideAll (act : Decide) : List FunctionBuildDecision → ArtifactCache →
    List FunctionBuildResult × ArtifactCache
  | [], cache => ([], cache)
  | decision :: decisions, cache =>
    let (result, cache) := act cache decision
    let (results, cache) := decideAll act decisions cache
    (result :: results, cache)

def BuildExecutionSummary.ofResults (results : List FunctionBuildResult) :
    BuildExecutionSummary where
  cacheHits := results.countP (·.cacheHit)
  cacheMisses := results.countP fun result => !result.cacheHit && result.action == .rebuild
  rebuilt := results.countP fun result =>
    result.action == .rebuild && result.succeeded && !result.cacheHit
  reused := results.countP fun result => result.action == .reuse && result.succeeded
  frontendRefreshed := results.countP fun result =>
    result.action == .frontendRefresh && result.succeeded
  removed := results.countP (·.action == .remove)
  failed := results.countP (!·.succeeded)
  artifactBytes := (results.map FunctionBuildResult.artifactBytes).sum
  functions := results

def sortedDecisions (decisions : List FunctionBuildDecision) : List FunctionBuildDecision :=
  decisions.mergeSort fun a b => decide (a.name ≤ b.name)

def sortedResults (results : List FunctionBuildResult) : List FunctionBuildResult :=
  results.mergeSort fun a b => decide (a.name ≤ b.name)

/-- `interleave` is the order in which the threads come to their decisions. -/
def executeIncrementalBuildPlan (compile : Text → List UInt8)
    (interleave : List FunctionBuildDecision → List FunctionBuildDecision)
    (plan : IncrementalBuildPlan) (cache : ArtifactCache) :
    BuildExecutionSummary × ArtifactCache :=
  let (gone, cache) := decideAll eraseEntry (plan.functions.filter (·.action = .remove)) cache
  let work := sortedDecisions (plan.functions.filter (·.action ≠ .remove))
  let (made, cache) := decideAll (makeArtifact compile) (interleave work) cache
  (BuildExecutionSummary.ofResults (sortedResults (gone ++ made)), cache)

/-! ## Assembly -/

structure FunctionArtifact where
  name : Text
  bytes : List UInt8
deriving DecidableEq, Repr

def appendU64 (value : Nat) : List UInt8 := Codec.littleEndian 8 value

/-- The container that is made without an assembler. -/
def defaultAssembly (artifacts : List FunctionArtifact) : List UInt8 :=
  [70, 82, 71, 65, 83, 77, 49, 0] ++ appendU64 artifacts.length ++
    artifacts.flatMap fun item =>
      appendU64 item.name.length ++ item.name ++ (appendU64 item.bytes.length ++ item.bytes)

def sortedArtifacts (artifacts : List FunctionArtifact) : List FunctionArtifact :=
  artifacts.mergeSort fun a b => decide (a.name ≤ b.name)

/-- There is no result if an artifact is missing: the assembly throws. -/
def loadArtifacts (cache : ArtifactCache) (decisions : List FunctionBuildDecision) :
    Option (List FunctionArtifact) :=
  decisions.mapM fun decision =>
    (cache decision.semanticCacheKey).map (FunctionArtifact.mk decision.name)

def assembleIncrementalArtifacts (assembler : Option (List FunctionArtifact → List UInt8))
    (plan : IncrementalBuildPlan) (cache : ArtifactCache) : Option (List UInt8) := do
  let artifacts ← loadArtifacts cache (plan.functions.filter fun decision =>
    decision.action ≠ .remove ∧ decision.semanticCacheKey ≠ [])
  return assembler.getD defaultAssembly (sortedArtifacts artifacts)

/-! ## Builds -/

/-- The semantic text of a function of the module. -/
def Hashing.textOf (h : Hashing) (m : Module) (name : Text) : Option Text :=
  (m.functions.find? (·.name == name)).map h.semanticText

/-- The function and those it calls, directly or through others, are the same in both modules. -/
def Hashing.SameClosure (h : Hashing) (p m : Module) (name : Text) : Prop :=
  ∀ callee, (Relation.ReflTransGen p.Calls name callee ↔
      Relation.ReflTransGen m.Calls name callee) ∧
    (Relation.ReflTransGen m.Calls name callee → h.textOf p callee = h.textOf m callee)

/-- All that a history of builds shares. The compiler never fails, and sees of a function its text
and the texts of those it calls. -/
structure Builder extends Hashing where
  settings : BuildSettings
  compile : Module → Text → List UInt8
  compile_congr : ∀ {p m : Module} {name : Text}, toHashing.SameClosure p m name →
    compile p name = compile m name
  interleave : List FunctionBuildDecision → List FunctionBuildDecision
  interleave_perm : ∀ work, (interleave work).Perm work
  assembler : Option (List FunctionArtifact → List UInt8) := none

structure BuildState where
  snapshot : IncrementalSnapshot := {}
  cache : ArtifactCache := ArtifactCache.empty

structure BuildOutcome where
  summary : BuildExecutionSummary
  assembled : Option (List UInt8)
  state : BuildState

namespace Builder

variable (b : Builder)

def plan (snapshot : IncrementalSnapshot) (m : Module) : IncrementalBuildPlan :=
  b.propagateDependencyInvalidations b.settings
    (b.buildIncrementalBuildPlan b.settings snapshot (b.buildIncrementalSnapshot m))
    (buildFunctionDependencyGraph m)

def build (s : BuildState) (m : Module) : BuildOutcome :=
  let plan := b.plan s.snapshot m
  let (summary, cache) := executeIncrementalBuildPlan (b.compile m) b.interleave plan s.cache
  { summary := summary
    assembled := assembleIncrementalArtifacts b.assembler plan cache
    state := { snapshot := b.buildIncrementalSnapshot m, cache := cache } }

/-- A build with an empty cache. -/
def cleanBuild (m : Module) : BuildOutcome := b.build {} m

/-- Every build succeeds and gives the bytes of a clean build. -/
def CorrectFrom (s : BuildState) : List Module → Prop
  | [] => True
  | m :: history =>
    ((b.build s m).summary.failed = 0 ∧ (b.build s m).assembled.isSome ∧
      (b.build s m).assembled = (b.cleanBuild m).assembled) ∧
    CorrectFrom (b.build s m).state history

def Correct (history : List Module) : Prop := b.CorrectFrom {} history

/-- What a build may meet after those of the earlier modules. No function is gone; every function
is new or changed, or calls one that is; and an earlier function with the same text and the same
callees calls the same functions as it does now, directly and through others. -/
structure Allowed (earlier : List Module) (m : Module) : Prop where
  kept : ∀ p ∈ earlier.getLast?, ∀ name ∈ p.names, name ∈ m.names
  changed : ∀ name ∈ m.names, ∃ callee ∈ m.names, Relation.ReflTransGen m.Calls name callee ∧
    ∀ p ∈ earlier.getLast?, b.textOf p callee ≠ b.textOf m callee
  same : ∀ p ∈ earlier, ∀ name ∈ p.names, b.textOf p name = b.textOf m name →
    (∀ callee, p.Calls name callee ↔ m.Calls name callee) → b.SameClosure p m name

end Builder

end Raz.Forge.Record
