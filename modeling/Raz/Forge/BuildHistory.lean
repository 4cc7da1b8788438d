import Mathlib.Data.List.Lex
import Raz.Forge.BinaryFormat
import Raz.Forge.IncrementalBuild

/-!
# Histories of incremental builds

The cache holds artifacts of the modules built so far, each under the key it was made for. A build
that may follow them rebuilds every function, and what it finds under a key is what it would make.

Results:
1. `correct_of_allowed`: histories of allowed builds.
2. `not_correct_twice`: a module that is built again as it is.
-/

namespace Raz.Forge.Record

open Relation List BuildAction

variable {name : Text} {function : Function} {decision : FunctionBuildDecision} {names : List Text}
  {earlier : List Module} {cache : ArtifactCache}

/-! ## Finding functions -/

theorem find?_eq_some_iff {α : Type} {key : α → Text} {items : List α} (h : (items.map key).Nodup)
    {item : α} :
    items.find? (key · == name) = some item ↔ item ∈ items ∧ key item = name := by
  constructor
  · intro hfind
    have hkey := List.find?_some hfind
    exact ⟨List.mem_of_find?_eq_some hfind, eq_of_beq hkey⟩
  rintro ⟨hmem, rfl⟩
  induction items with
  | nil => exact absurd hmem not_mem_nil
  | cons first items ih =>
    obtain ⟨hfirst, hitems⟩ := nodup_cons.mp h
    rcases mem_cons.mp hmem with rfl | hmem
    · exact List.find?_cons_of_pos (beq_self_eq_true _)
    have hne : ¬ (key first == key item) = true := fun heq =>
      hfirst (eq_of_beq heq ▸ mem_map_of_mem hmem)
    have hskip : (first :: items).find? (key · == key item) =
        items.find? (key · == key item) := List.find?_cons_of_neg hne
    exact hskip.trans (ih hitems hmem)

theorem find?_perm {α : Type} {key : α → Text} {items others : List α} (hperm : items.Perm others)
    (h : (items.map key).Nodup) (name : Text) :
    items.find? (key · == name) = others.find? (key · == name) := by
  refine Option.ext fun item => ?_
  rw [find?_eq_some_iff h, find?_eq_some_iff ((hperm.map key).nodup_iff.mp h), hperm.mem_iff]

def Module.find (m : Module) (name : Text) : Option Function :=
  m.functions.find? (·.name == name)

theorem Module.exists_find {m : Module} (h : name ∈ m.names) :
    ∃ function ∈ m.functions, function.name = name ∧ m.find name = some function := by
  cases hfind : m.find name with
  | none =>
    obtain ⟨function, hmem, rfl⟩ := mem_map.mp h
    exact absurd (beq_self_eq_true _) (List.find?_eq_none.mp hfind function hmem)
  | some function =>
    have hname := List.find?_some hfind
    exact ⟨function, List.mem_of_find?_eq_some hfind, eq_of_beq hname, rfl⟩

section
variable {h : Hashing} {m : Module}

theorem snapshot_perm : (h.buildIncrementalSnapshot m).functions.Perm
    (m.functions.map h.fingerprint) := mergeSort_perm _ _

theorem map_name_fingerprint :
    (m.functions.map h.fingerprint).map FunctionFingerprint.name = m.names := by
  rw [List.map_map]
  rfl

theorem mem_names_snapshot : name ∈ (h.buildIncrementalSnapshot m).names ↔ name ∈ m.names := by
  have hperm := (snapshot_perm (h := h) (m := m)).map FunctionFingerprint.name
  rw [map_name_fingerprint] at hperm
  exact hperm.mem_iff

theorem find_snapshot (hdist : m.names.Nodup) (name : Text) :
    (h.buildIncrementalSnapshot m).find name = (m.find name).map h.fingerprint := by
  have hnodup : ((m.functions.map h.fingerprint).map FunctionFingerprint.name).Nodup := by
    rw [map_name_fingerprint]
    exact hdist
  have hfind := find?_perm (snapshot_perm (h := h) (m := m)).symm hnodup name
  exact hfind.symm.trans List.find?_map

end

theorem sortedSet_congr {items others : List Text} (h : ∀ item, item ∈ items ↔ item ∈ others) :
    sortedSet items = sortedSet others := by
  have hperm : (sortedSet items).Perm (sortedSet others) := by
    refine (perm_ext_iff_of_nodup (nodup_sortedSet _) (nodup_sortedSet _)).mpr fun item => ?_
    rw [mem_sortedSet, mem_sortedSet, h]
  exact hperm.eq_of_pairwise' (pairwise_mergeSort' (· ≤ ·) _) (pairwise_mergeSort' (· ≤ ·) _)

/-! ## The plan of an allowed build -/

/-- The snapshot that the build before has left. -/
def Hashing.snapshotOf (h : Hashing) (previous : Option Module) : IncrementalSnapshot :=
  previous.elim {} h.buildIncrementalSnapshot

theorem mem_names_snapshotOf {h : Hashing} {previous : Option Module} :
    name ∈ (h.snapshotOf previous).names ↔ ∃ p ∈ previous, name ∈ p.names := by
  cases previous with
  | none => exact ⟨fun hname => absurd hname not_mem_nil, fun ⟨_, hp, _⟩ => absurd hp (by simp)⟩
  | some p =>
    refine mem_names_snapshot.trans ⟨fun hname => ⟨p, rfl, hname⟩, ?_⟩
    rintro ⟨other, hother, hname⟩
    exact Option.some.inj hother ▸ hname

theorem action_of_changed {h : Hashing} {m : Module} {previous : Option Module}
    (hdist : m.names.Nodup) (hprev : ∀ p ∈ previous, p.names.Nodup) (hname : name ∈ m.names)
    (hchanged : ∀ p ∈ previous, h.textOf p name ≠ h.textOf m name) :
    (changeKind ((h.snapshotOf previous).find name)
      ((h.buildIncrementalSnapshot m).find name)).action = .rebuild := by
  obtain ⟨function, _, _, hfind⟩ := m.exists_find hname
  cases previous with
  | none => rfl
  | some p =>
    have hold : (h.snapshotOf (some p)).find name = (p.find name).map h.fingerprint :=
      find_snapshot (hprev p rfl) name
    rw [hold, find_snapshot hdist, hfind]
    cases hfindp : p.find name with
    | none => rfl
    | some old =>
      have htext : h.semanticText old ≠ h.semanticText function := by
        intro heq
        refine hchanged p rfl ?_
        change (p.find name).map h.semanticText = (m.find name).map h.semanticText
        rw [hfindp, hfind, Option.map_some, Option.map_some, heq]
      have hfingerprint : (h.fingerprint old).semanticFingerprint ≠
          (h.fingerprint function).semanticFingerprint :=
        fun heq => htext (h.sha256_injective heq)
      change (if _ then _ else _ : FunctionChangeKind).action = _
      rw [if_pos hfingerprint]
      rfl

namespace Builder

variable {b : Builder} {m : Module}

/-- The key of a function that is rebuilt. -/
def artifactKey (b : Builder) (m : Module) (function : Function) : Text :=
  b.dependencyKey (b.buildFunctionCacheKey b.settings (b.fingerprint function) false)
    (m.dependencyNode function.name) b.settings

/-- The decision to rebuild a function of the module. -/
def rebuilt (b : Builder) (m : Module) (name : Text) : FunctionBuildDecision :=
  match m.find name with
  | some function =>
    { name := name
      action := .rebuild
      semanticCacheKey := b.artifactKey m function
      frontendCacheKey := b.buildFunctionCacheKey b.settings (b.fingerprint function) true }
  | none => { name := name, action := .rebuild }

theorem decision_of_mem (hdist : m.names.Nodup) {previous : IncrementalSnapshot}
    (hfind : m.find function.name = some function) (kind : FunctionChangeKind) :
    b.decision b.settings previous (b.buildIncrementalSnapshot m) ⟨function.name, kind⟩ =
      { name := function.name
        action := kind.action
        semanticCacheKey := b.buildFunctionCacheKey b.settings (b.fingerprint function) false
        frontendCacheKey := b.buildFunctionCacheKey b.settings (b.fingerprint function) true } := by
  unfold Hashing.decision
  rw [find_snapshot hdist, hfind]
  rfl

theorem rekey_invalidate (hname : decision.name = function.name) (hmem : function.name ∈ m.names)
    (hinvalid : function.name ∈ names) (haction : decision.action ≠ .remove) :
    b.rekey b.settings (buildFunctionDependencyGraph m) (decision.invalidate names) =
      { decision with
        action := .rebuild
        semanticCacheKey := b.dependencyKey decision.semanticCacheKey
          (m.dependencyNode function.name) b.settings } := by
  have hrebuild : decision.invalidate names = { decision with action := .rebuild } :=
    if_pos ⟨hname ▸ hinvalid, haction⟩
  unfold Hashing.rekey
  rw [hrebuild, if_pos rfl]
  dsimp only
  rw [hname, findNode_graph hmem]

theorem action_ne_remove {before : Option FunctionFingerprint} {after : FunctionFingerprint} :
    (changeKind before (some after)).action ≠ .remove := by
  cases before with
  | none => exact noConfusion
  | some old =>
    change (if _ then _ else if _ then _ else _ : FunctionChangeKind).action ≠ _
    split
    · exact noConfusion
    · split <;> exact noConfusion

/-- The decision on a function before the invalidation. -/
def decisionOn (b : Builder) (previous : IncrementalSnapshot) (m : Module) (name : Text) :
    FunctionBuildDecision :=
  b.decision b.settings previous (b.buildIncrementalSnapshot m)
    ⟨name, changeKind (previous.find name) ((b.buildIncrementalSnapshot m).find name)⟩

/-- If no function is gone, there is a decision on each function of the module. -/
theorem basePlan_functions {previous : IncrementalSnapshot}
    (hkept : ∀ name ∈ previous.names, name ∈ m.names) :
    (b.buildIncrementalBuildPlan b.settings previous (b.buildIncrementalSnapshot m)).functions =
      (sortedSet m.names).map (b.decisionOn previous m) := by
  have hnames : sortedSet (previous.names ++ (b.buildIncrementalSnapshot m).names) =
      sortedSet m.names := by
    refine sortedSet_congr fun name => ?_
    rw [mem_append, mem_names_snapshot]
    exact ⟨fun h => h.elim (hkept name) id, .inr⟩
  unfold Hashing.buildIncrementalBuildPlan compareIncrementalSnapshots
  rw [hnames]
  exact map_map

/-- **An allowed build rebuilds every function**, under the key that names its callees. -/
theorem plan_functions (hdist : m.names.Nodup) (hearlier : ∀ p ∈ earlier, p.names.Nodup)
    (h : b.Allowed earlier m) :
    (b.plan (b.snapshotOf earlier.getLast?) m).functions =
      (sortedSet m.names).map (b.rebuilt m) := by
  have hlast : ∀ p ∈ earlier.getLast?, p.names.Nodup := fun p hp =>
    hearlier p (mem_of_getLast? hp)
  have hbase : (b.buildIncrementalBuildPlan b.settings (b.snapshotOf earlier.getLast?)
      (b.buildIncrementalSnapshot m)).functions =
        (sortedSet m.names).map (b.decisionOn (b.snapshotOf earlier.getLast?) m) :=
    basePlan_functions fun name hname =>
      have ⟨p, hp, hmem⟩ := mem_names_snapshotOf.mp hname
      h.kept p hp name hmem
  change (b.buildIncrementalBuildPlan b.settings (b.snapshotOf earlier.getLast?)
    (b.buildIncrementalSnapshot m)).functions.map _ = _
  rw [hbase, List.map_map]
  refine map_congr_left fun name hname => ?_
  have hmem := mem_sortedSet.mp hname
  obtain ⟨function, _, rfl, hfind⟩ := m.exists_find hmem
  -- the function reaches one that is rebuilt anyway
  obtain ⟨callee, hcallee, hreach, hchanged⟩ := h.changed function.name hmem
  have hrebuild := action_of_changed hdist hlast hcallee hchanged
  obtain ⟨target, _, rfl, htarget⟩ := m.exists_find hcallee
  have hinvalid : target.name ∈ (b.buildIncrementalBuildPlan b.settings
      (b.snapshotOf earlier.getLast?) (b.buildIncrementalSnapshot m)).invalid := by
    refine mem_map.mpr ⟨b.decisionOn (b.snapshotOf earlier.getLast?) m target.name, ?_, ?_⟩
    · rw [hbase]
      refine mem_filter.mpr ⟨mem_map_of_mem (mem_sortedSet.mpr hcallee), ?_⟩
      rw [decisionOn, decision_of_mem hdist htarget]
      exact decide_eq_true (.inl hrebuild)
    · rw [decisionOn, decision_of_mem hdist htarget]
  have hreached := mem_invalidated hinvalid hreach
  have hdec : b.decisionOn (b.snapshotOf earlier.getLast?) m function.name = _ :=
    decision_of_mem hdist hfind _
  have hkind : (b.decisionOn (b.snapshotOf earlier.getLast?) m function.name).action ≠ .remove := by
    rw [hdec, find_snapshot hdist, hfind]
    exact action_ne_remove
  change b.rekey b.settings _ ((b.decisionOn _ m function.name).invalidate _) = _
  rw [rekey_invalidate (by rw [hdec]) hmem hreached hkind, hdec, rebuilt, hfind]
  rfl

/-! ## The cache -/

/-- Every entry of the cache is an artifact of one of the modules, under the key it was made
for. -/
def Holds (b : Builder) (modules : List Module) (cache : ArtifactCache) : Prop :=
  ∀ key bytes, cache key = some bytes → ∃ p ∈ modules, ∃ function ∈ p.functions,
    p.find function.name = some function ∧ key = b.artifactKey p function ∧
      bytes = b.compile p function.name

theorem holds_empty (modules : List Module) : b.Holds modules ArtifactCache.empty :=
  fun _ _ h => absurd h (by simp [ArtifactCache.empty])

theorem Holds.mono {modules others : List Module} (h : b.Holds modules cache)
    (hsub : modules ⊆ others) : b.Holds others cache := by
  intro key bytes hentry
  obtain ⟨p, hp, rest⟩ := h key bytes hentry
  exact ⟨p, hsub hp, rest⟩

theorem artifactKey_ne_nil (function : Function) : b.artifactKey m function ≠ [] :=
  b.sha256_ne_nil _

theorem mem_callees_node {p : Module} {callee : Text} :
    callee ∈ (p.dependencyNode name).callees ↔ p.Calls name callee := by
  refine mem_sortedSet.trans ⟨?_, ?_⟩
  · intro h
    obtain ⟨function, hfun, hcallee⟩ := mem_flatMap.mp h
    obtain ⟨hmem, hname⟩ := mem_filter.mp hfun
    exact ⟨function, hmem, eq_of_beq hname, hcallee⟩
  · rintro ⟨function, hmem, rfl, hcallee⟩
    exact mem_flatMap.mpr ⟨function, mem_filter.mpr ⟨hmem, beq_self_eq_true _⟩, hcallee⟩

/-- **What is found under a key is what would be made**, in an allowed build. -/
theorem compile_of_holds {bytes : List UInt8} (h : b.Allowed earlier m)
    (hholds : b.Holds (earlier ++ [m]) cache) (hfind : m.find function.name = some function)
    (hentry : cache (b.artifactKey m function) = some bytes) :
    bytes = b.compile m function.name := by
  obtain ⟨p, hp, old, hold, hfindp, hkey, rfl⟩ := hholds _ _ hentry
  obtain ⟨horiginal, hname, hcallees⟩ := dependencyKey_inj hkey
  obtain ⟨_, hsemantic⟩ := functionCacheKey_inj horiginal
  have hsame : function.name = old.name := hname
  rcases mem_append.mp hp with hp | hp
  · have htext : b.textOf p old.name = b.textOf m old.name := by
      change (p.find old.name).map _ = (m.find old.name).map _
      rw [hfindp, ← hsame, hfind]
      exact congrArg some (b.sha256_injective hsemantic.symm)
    have hcalls : ∀ callee, p.Calls old.name callee ↔ m.Calls old.name callee := by
      intro callee
      have hiff := hcallees callee
      rw [mem_callees_node, mem_callees_node, hsame] at hiff
      exact hiff.symm
    rw [hsame]
    exact b.compile_congr (h.same p hp old.name (mem_map_of_mem hold) htext hcalls)
  · rw [mem_singleton.mp hp, hsame]

theorem makeArtifact_hit {compile : Text → List UInt8} {bytes : List UInt8}
    (haction : decision.action ≠ .frontendRefresh)
    (hlook : cache.lookup decision.semanticCacheKey = some bytes) :
    makeArtifact compile cache decision =
      ( { decision.result true "cache hit" with cacheHit := true, artifactBytes := bytes.length }
      , cache ) := by
  unfold makeArtifact
  rw [if_neg haction, hlook]

theorem makeArtifact_miss {compile : Text → List UInt8} (haction : decision.action = .rebuild)
    (hlook : cache.lookup decision.semanticCacheKey = none) :
    makeArtifact compile cache decision =
      ( { decision.result true "rebuilt" with artifactBytes := (compile decision.name).length }
      , cache.keep decision.semanticCacheKey (compile decision.name) ) := by
  unfold makeArtifact
  rw [haction, if_neg noConfusion, hlook]
  exact if_neg noConfusion

theorem makeArtifact_rebuilt (h : b.Allowed earlier m) (hholds : b.Holds (earlier ++ [m]) cache)
    (hname : name ∈ m.names) :
    (makeArtifact (b.compile m) cache (b.rebuilt m name)).1.succeeded = true ∧
      b.Holds (earlier ++ [m]) (makeArtifact (b.compile m) cache (b.rebuilt m name)).2 ∧
      (makeArtifact (b.compile m) cache (b.rebuilt m name)).2 (b.rebuilt m name).semanticCacheKey =
        some (b.compile m name) ∧
      ∀ key bytes, cache key = some bytes →
        (makeArtifact (b.compile m) cache (b.rebuilt m name)).2 key = some bytes := by
  obtain ⟨function, hmem, rfl, hfind⟩ := m.exists_find hname
  have hdec : b.rebuilt m function.name = ⟨function.name, .rebuild, b.artifactKey m function,
      b.buildFunctionCacheKey b.settings (b.fingerprint function) true⟩ := by
    rw [rebuilt, hfind]
  have hkey : b.artifactKey m function ≠ [] := artifactKey_ne_nil function
  have hlook : cache.lookup (b.artifactKey m function) = cache (b.artifactKey m function) :=
    if_neg hkey
  have hkeep : cache.keep (b.artifactKey m function) (b.compile m function.name) =
      Function.update cache (b.artifactKey m function) (some (b.compile m function.name)) :=
    if_neg hkey
  rw [hdec]
  cases hentry : cache (b.artifactKey m function) with
  | some bytes =>
    rw [makeArtifact_hit noConfusion (hlook.trans hentry)]
    refine ⟨rfl, hholds, ?_, fun _ _ h => h⟩
    rw [← compile_of_holds h hholds hfind hentry]
    exact hentry
  | none =>
    rw [makeArtifact_miss rfl (hlook.trans hentry)]
    change true = true ∧ b.Holds _ (cache.keep _ _) ∧ cache.keep _ _ _ = _ ∧
      ∀ key bytes, cache key = some bytes → cache.keep _ _ key = some bytes
    rw [hkeep]
    refine ⟨rfl, ?_, Function.update_self _ _ _, ?_⟩
    · intro key bytes hbytes
      by_cases heq : key = b.artifactKey m function
      · rw [heq, Function.update_self] at hbytes
        exact ⟨m, mem_append_right _ mem_cons_self, function, hmem, hfind, heq,
          (Option.some.inj hbytes).symm⟩
      · rw [Function.update_of_ne heq] at hbytes
        exact hholds key bytes hbytes
    · -- the entry was not there before
      intro key bytes hbytes
      have hne : key ≠ b.artifactKey m function := by
        rintro rfl
        exact absurd (hbytes.symm.trans hentry) (Option.some_ne_none bytes)
      rw [Function.update_of_ne hne]
      exact hbytes

/-! ## One build -/

/-- Every decision succeeds, and afterwards all artifacts are in the cache. -/
theorem decideAll_rebuilt (h : b.Allowed earlier m) (hnames : ∀ name ∈ names, name ∈ m.names) :
    ∀ {cache : ArtifactCache}, b.Holds (earlier ++ [m]) cache →
      (∀ result ∈ (decideAll (makeArtifact (b.compile m)) (names.map (b.rebuilt m)) cache).1,
        result.succeeded = true) ∧
      b.Holds (earlier ++ [m])
        (decideAll (makeArtifact (b.compile m)) (names.map (b.rebuilt m)) cache).2 ∧
      (∀ name ∈ names, (decideAll (makeArtifact (b.compile m)) (names.map (b.rebuilt m)) cache).2
        (b.rebuilt m name).semanticCacheKey = some (b.compile m name)) ∧
      ∀ key bytes, cache key = some bytes →
        (decideAll (makeArtifact (b.compile m)) (names.map (b.rebuilt m)) cache).2 key =
          some bytes := by
  induction names with
  | nil =>
    exact fun hholds => ⟨fun _ hmem => absurd hmem not_mem_nil, hholds,
      fun _ hmem => absurd hmem not_mem_nil, fun _ _ hentry => hentry⟩
  | cons name names ih =>
    intro cache hholds
    obtain ⟨hsucceeded, hholds', hartifact, hkept⟩ :=
      makeArtifact_rebuilt h hholds (hnames name mem_cons_self)
    obtain ⟨hall, hfinal, hartifacts, hentries⟩ :=
      ih (fun other hother => hnames other (mem_cons_of_mem _ hother)) hholds'
    refine ⟨?_, hfinal, ?_, fun key bytes hentry => hentries key bytes (hkept key bytes hentry)⟩
    · intro result hres
      rcases mem_cons.mp hres with rfl | hres
      · exact hsucceeded
      · exact hall result hres
    · intro other hother
      rcases mem_cons.mp hother with rfl | hother
      · exact hentries _ _ hartifact
      · exact hartifacts other hother

theorem rebuilt_action (b : Builder) (m : Module) (name : Text) :
    (b.rebuilt m name).action = .rebuild := by
  unfold rebuilt
  split <;> rfl

theorem rebuilt_name (b : Builder) (m : Module) (name : Text) : (b.rebuilt m name).name = name := by
  unfold rebuilt
  split <;> rfl

theorem rebuilt_key (hname : name ∈ m.names) : (b.rebuilt m name).semanticCacheKey ≠ [] := by
  obtain ⟨function, _, rfl, hfind⟩ := m.exists_find hname
  rw [rebuilt, hfind]
  exact artifactKey_ne_nil function

/-- What an allowed build puts together. -/
def assembly (b : Builder) (m : Module) : List UInt8 :=
  b.assembler.getD defaultAssembly
    (sortedArtifacts ((sortedSet m.names).map fun name => ⟨name, b.compile m name⟩))

theorem exists_interleaved (b : Builder) (m : Module) (names : List Text) :
    ∃ order : List Text, order.Perm names ∧
      b.interleave (sortedDecisions (names.map (b.rebuilt m))) = order.map (b.rebuilt m) := by
  refine ⟨(b.interleave (sortedDecisions (names.map (b.rebuilt m)))).map
    FunctionBuildDecision.name, ?_, ?_⟩
  · have hperm := (b.interleave_perm (sortedDecisions (names.map (b.rebuilt m)))).trans
      (mergeSort_perm _ _)
    have hnames := hperm.map FunctionBuildDecision.name
    rw [List.map_map] at hnames
    refine hnames.trans ?_
    have hid : FunctionBuildDecision.name ∘ b.rebuilt m = id := funext (b.rebuilt_name m)
    rw [hid, map_id]
  · rw [List.map_map]
    refine (map_id _).symm.trans (map_congr_left fun decision hdec => ?_)
    have hmem := (mergeSort_perm _ _).mem_iff.mp ((b.interleave_perm _).mem_iff.mp hdec)
    obtain ⟨name, _, rfl⟩ := mem_map.mp hmem
    exact congrArg (b.rebuilt m) (b.rebuilt_name m name).symm

theorem filter_rebuilt {p : FunctionBuildDecision → Prop} [DecidablePred p]
    (h : ∀ name ∈ names, p (b.rebuilt m name)) :
    (names.map (b.rebuilt m)).filter p = names.map (b.rebuilt m) := by
  refine filter_eq_self.mpr fun decision hdec => ?_
  obtain ⟨name, hname, rfl⟩ := mem_map.mp hdec
  exact decide_eq_true (h name hname)

theorem filter_rebuilt_remove (names : List Text) :
    (names.map (b.rebuilt m)).filter (·.action = .remove) = [] := by
  refine filter_eq_nil_iff.mpr fun decision hdec => ?_
  obtain ⟨name, _, rfl⟩ := mem_map.mp hdec
  rw [rebuilt_action]
  exact Bool.noConfusion

theorem loadArtifacts_rebuilt
    (h : ∀ name ∈ names, cache (b.rebuilt m name).semanticCacheKey = some (b.compile m name)) :
    loadArtifacts cache (names.map (b.rebuilt m)) =
      some (names.map fun name => ⟨name, b.compile m name⟩) := by
  unfold loadArtifacts
  induction names with
  | nil => rfl
  | cons name names ih =>
    rw [map_cons, mapM_cons, h name mem_cons_self, rebuilt_name,
      ih fun other hother => h other (mem_cons_of_mem _ hother)]
    rfl

/-- **An allowed build succeeds and puts the artifacts of its module together**, whatever the cache
holds of the modules built before. -/
theorem build_spec {s : BuildState} (hdist : m.names.Nodup)
    (hearlier : ∀ p ∈ earlier, p.names.Nodup) (h : b.Allowed earlier m)
    (hsnapshot : s.snapshot = b.snapshotOf earlier.getLast?) (hholds : b.Holds earlier s.cache) :
    (b.build s m).summary.failed = 0 ∧ (b.build s m).assembled = some (b.assembly m) ∧
      b.Holds (earlier ++ [m]) (b.build s m).state.cache := by
  have hplan := plan_functions hdist hearlier h
  rw [← hsnapshot] at hplan
  obtain ⟨order, hperm, horder⟩ := b.exists_interleaved m (sortedSet m.names)
  have hmem : ∀ name ∈ sortedSet m.names, name ∈ m.names := fun name => mem_sortedSet.mp
  have hwork : (b.plan s.snapshot m).functions.filter (·.action ≠ .remove) =
      (sortedSet m.names).map (b.rebuilt m) := by
    rw [hplan]
    refine filter_rebuilt fun name _ => ?_
    rw [rebuilt_action]
    exact noConfusion
  have hgone : (b.plan s.snapshot m).functions.filter (·.action = .remove) = [] := by
    rw [hplan]
    exact filter_rebuilt_remove _
  obtain ⟨hall, hfinal, hartifacts, _⟩ := decideAll_rebuilt h
    (fun name hname => hmem name (hperm.mem_iff.mp hname))
    (hholds.mono (subset_append_left _ _))
  have hexecute : executeIncrementalBuildPlan (b.compile m) b.interleave (b.plan s.snapshot m)
      s.cache = (BuildExecutionSummary.ofResults (sortedResults
        (decideAll (makeArtifact (b.compile m)) (order.map (b.rebuilt m)) s.cache).1),
        (decideAll (makeArtifact (b.compile m)) (order.map (b.rebuilt m)) s.cache).2) := by
    unfold executeIncrementalBuildPlan
    rw [hgone, hwork]
    change (BuildExecutionSummary.ofResults (sortedResults (decideAll _ (b.interleave _) _).1),
      (decideAll _ (b.interleave _) _).2) = _
    rw [horder]
  change (executeIncrementalBuildPlan _ _ (b.plan s.snapshot m) _).1.failed = 0 ∧
    assembleIncrementalArtifacts _ (b.plan s.snapshot m)
      (executeIncrementalBuildPlan _ _ (b.plan s.snapshot m) _).2 = _ ∧
    b.Holds _ (executeIncrementalBuildPlan _ _ (b.plan s.snapshot m) _).2
  rw [hexecute]
  refine ⟨?_, ?_, hfinal⟩
  · refine countP_eq_zero.mpr fun result hres => ?_
    rw [hall result ((mergeSort_perm _ _).mem_iff.mp hres)]
    exact Bool.noConfusion
  have hkept : (b.plan s.snapshot m).functions.filter (fun decision =>
      decision.action ≠ .remove ∧ decision.semanticCacheKey ≠ []) =
      (sortedSet m.names).map (b.rebuilt m) := by
    rw [hplan]
    refine filter_rebuilt fun name hname => ⟨?_, rebuilt_key (hmem name hname)⟩
    rw [rebuilt_action]
    exact noConfusion
  unfold assembleIncrementalArtifacts
  rw [hkept, loadArtifacts_rebuilt fun name hname => hartifacts name (hperm.mem_iff.mpr hname)]
  rfl

/-! ## Histories -/

theorem allowed_first (b : Builder) (m : Module) : b.Allowed [] m where
  kept _ hp := absurd hp (by simp)
  changed name hname := ⟨name, hname, ReflTransGen.refl, fun _ hp => absurd hp (by simp)⟩
  same _ hp := absurd hp not_mem_nil

theorem cleanBuild_assembled (hdist : m.names.Nodup) :
    (b.cleanBuild m).assembled = some (b.assembly m) :=
  (build_spec hdist (fun _ hp => absurd hp not_mem_nil) (b.allowed_first m) rfl
    (holds_empty [])).2.1

theorem correctFrom_of_allowed {history : List Module} (hdist : ∀ m ∈ history, m.names.Nodup) :
    ∀ {earlier : List Module} {s : BuildState}, (∀ p ∈ earlier, p.names.Nodup) →
      s.snapshot = b.snapshotOf earlier.getLast? → b.Holds earlier s.cache →
      (∀ front m back, history = front ++ m :: back → b.Allowed (earlier ++ front) m) →
      b.CorrectFrom s history := by
  induction history with
  | nil => exact fun _ _ _ _ => True.intro
  | cons m history ih =>
    intro earlier s hearlier hsnapshot hholds hallowed
    have hm := hdist m mem_cons_self
    have hfirst := hallowed [] m history rfl
    rw [append_nil] at hfirst
    obtain ⟨hfailed, hassembled, hholds'⟩ := build_spec hm hearlier hfirst hsnapshot hholds
    refine ⟨⟨hfailed, ?_, ?_⟩, ?_⟩
    · rw [hassembled]
      rfl
    · rw [hassembled, cleanBuild_assembled hm]
    refine ih (fun other hother => hdist other (mem_cons_of_mem _ hother)) ?_ ?_ hholds' ?_
    · intro p hp
      rcases mem_append.mp hp with hp | hp
      · exact hearlier p hp
      · rw [mem_singleton.mp hp]
        exact hm
    · rw [List.getLast?_concat]
      rfl
    · intro front other back heq
      have hlater := hallowed (m :: front) other back (congrArg (m :: ·) heq)
      rwa [append_assoc]

/-- **Histories of allowed builds.** If each build may follow those before it, every build succeeds
and gives the bytes of a clean build of its module. -/
theorem correct_of_allowed (b : Builder) (history : List Module)
    (hdistinct : ∀ m ∈ history, m.names.Nodup)
    (hallowed : ∀ front m back, history = front ++ m :: back → b.Allowed front m) :
    b.Correct history :=
  correctFrom_of_allowed hdistinct (fun _ hp => absurd hp not_mem_nil) rfl (holds_empty [])
    hallowed

/-- A printer that shows the target features only, and a hash that is no digest. -/
def featureHashing : Hashing where
  printModule m := m.functions.flatMap Function.targetFeature
  sha256 text := 0 :: text
  sha256_injective _ _ h := (List.cons.inj h).2
  sha256_ne_nil _ := List.cons_ne_nil _ _

/-- A compiler that gives the text. -/
def plain : Builder where
  toHashing := featureHashing
  settings := { frontendId := [], configuration := [], kind := .object }
  compile m name := (featureHashing.textOf m name).getD []
  compile_congr {_ _ name} h := congrArg (·.getD []) ((h name).2 ReflTransGen.refl)
  interleave work := work
  interleave_perm work := List.Perm.refl work

theorem textOf_returnModule (feature : Text) :
    plain.textOf (returnModule feature) [102] = some feature :=
  congrArg some (append_nil feature)

/-- A feature that is new may follow any others. -/
theorem allowed_returnModule {features : List Text} {feature : Text} (h : feature ∉ features) :
    plain.Allowed (features.map returnModule) (returnModule feature) where
  kept p hp name hname := by
    obtain ⟨before, -, rfl⟩ := mem_map.mp (List.mem_of_getLast? hp)
    exact hname
  changed name hname := by
    refine ⟨name, hname, ReflTransGen.refl, fun p hp htext => ?_⟩
    obtain ⟨before, hbefore, rfl⟩ := mem_map.mp (List.mem_of_getLast? hp)
    rw [mem_singleton.mp hname, textOf_returnModule, textOf_returnModule] at htext
    exact h (Option.some.inj htext ▸ hbefore)
  same p hp name hname htext _ := by
    obtain ⟨before, hbefore, rfl⟩ := mem_map.mp hp
    rw [mem_singleton.mp hname, textOf_returnModule, textOf_returnModule] at htext
    exact absurd (Option.some.inj htext ▸ hbefore) h

/-- A function that is changed twice. -/
theorem correct_changed :
    plain.Correct [returnModule [], returnModule [1], returnModule [2]] := by
  refine correct_of_allowed plain _ (by decide) fun front m back h => ?_
  obtain _ | ⟨first, _ | ⟨second, _ | ⟨third, front⟩⟩⟩ := front
  · cases h
    exact plain.allowed_first _
  · cases h
    exact @allowed_returnModule [[]] [1] (by decide)
  · cases h
    exact @allowed_returnModule [[], [1]] [2] (by decide)
  · have htail := (List.cons.inj (List.cons.inj (List.cons.inj h).2).2).2
    exact absurd htail.symm (append_ne_nil_of_right_ne_nil _ (cons_ne_nil _ _))

/-! ## A module that is built again -/

/-- Decisions that leave the cache alone are made independently. -/
theorem decideAll_eq_map {act : Decide} {result : FunctionBuildDecision → FunctionBuildResult}
    {decisions : List FunctionBuildDecision}
    (h : ∀ decision ∈ decisions, act cache decision = (result decision, cache)) :
    decideAll act decisions cache = (decisions.map result, cache) := by
  induction decisions with
  | nil => rfl
  | cons decision decisions ih =>
    unfold decideAll
    rw [h decision mem_cons_self]
    change (result decision :: (decideAll act decisions cache).1,
      (decideAll act decisions cache).2) = _
    rw [ih fun other hother => h other (mem_cons_of_mem _ hother)]
    rfl

theorem decisionOn_unchanged (hdist : m.names.Nodup) (hname : name ∈ m.names) :
    ∃ function, b.decisionOn (b.buildIncrementalSnapshot m) m name =
      { name := name
        action := .reuse
        semanticCacheKey := b.buildFunctionCacheKey b.settings (b.fingerprint function) false
        frontendCacheKey := b.buildFunctionCacheKey b.settings (b.fingerprint function) true } := by
  obtain ⟨function, _, rfl, hfind⟩ := m.exists_find hname
  refine ⟨function, (decision_of_mem hdist hfind _).trans ?_⟩
  have hkind : changeKind (some (b.fingerprint function)) (some (b.fingerprint function)) =
      .unchanged := by
    change (if _ then _ else if _ then _ else _ : FunctionChangeKind) = _
    rw [if_neg (not_not_intro rfl), if_neg (not_not_intro rfl)]
  rw [find_snapshot hdist, hfind, Option.map_some, hkind]
  rfl

theorem plan_unchanged (hdist : m.names.Nodup) :
    (b.plan (b.buildIncrementalSnapshot m) m).functions =
      (sortedSet m.names).map (b.decisionOn (b.buildIncrementalSnapshot m) m) := by
  have hbase : (b.buildIncrementalBuildPlan b.settings (b.buildIncrementalSnapshot m)
      (b.buildIncrementalSnapshot m)).functions =
        (sortedSet m.names).map (b.decisionOn (b.buildIncrementalSnapshot m) m) :=
    basePlan_functions fun name => mem_names_snapshot.mp
  have hreuse : ∀ decision ∈ (sortedSet m.names).map
      (b.decisionOn (b.buildIncrementalSnapshot m) m), decision.action = .reuse := by
    intro decision hdec
    obtain ⟨name, hname, rfl⟩ := mem_map.mp hdec
    obtain ⟨function, heq⟩ := decisionOn_unchanged (b := b) hdist (mem_sortedSet.mp hname)
    rw [heq]
  have hinvalid : (b.buildIncrementalBuildPlan b.settings (b.buildIncrementalSnapshot m)
      (b.buildIncrementalSnapshot m)).invalid = [] := by
    unfold IncrementalBuildPlan.invalid
    rw [hbase, filter_eq_nil_iff.mpr]
    · rfl
    · intro decision hdec
      rw [hreuse decision hdec]
      decide
  have hnone : (b.buildIncrementalBuildPlan b.settings (b.buildIncrementalSnapshot m)
      (b.buildIncrementalSnapshot m)).invalidated (buildFunctionDependencyGraph m) = [] := by
    unfold IncrementalBuildPlan.invalidated
    rw [hinvalid, Spread.spread_nil]
  change (b.buildIncrementalBuildPlan b.settings (b.buildIncrementalSnapshot m)
    (b.buildIncrementalSnapshot m)).functions.map _ = _
  rw [hnone, hbase]
  refine (map_congr_left fun decision hdec => ?_).trans (map_id _)
  have hkept : decision.invalidate [] = decision := if_neg fun h => not_mem_nil h.1
  unfold Hashing.rekey
  rw [hkept, if_neg]
  · rfl
  · rw [hreuse decision hdec]
    exact noConfusion

/-- **A module that is built again as it is makes the build fail**: what was stored is under the
keys of rebuilt functions, and reuse looks for the others. -/
theorem failed_twice (b : Builder) (hdist : m.names.Nodup) (hne : m.names ≠ []) :
    (b.build (b.cleanBuild m).state m).summary.failed ≠ 0 := by
  have hholds : b.Holds [m] (b.cleanBuild m).state.cache :=
    (build_spec hdist (fun _ hp => absurd hp not_mem_nil) (b.allowed_first m) rfl
      (holds_empty [])).2.2
  have hplan : (b.plan (b.cleanBuild m).state.snapshot m).functions = _ := plan_unchanged hdist
  have hdec : ∀ decision ∈ (b.plan (b.cleanBuild m).state.snapshot m).functions,
      decision.action = .reuse ∧ makeArtifact (b.compile m) (b.cleanBuild m).state.cache decision =
        (decision.result false "required reusable artifact is missing",
          (b.cleanBuild m).state.cache) := by
    intro decision hdec
    rw [hplan] at hdec
    obtain ⟨name, hname, rfl⟩ := mem_map.mp hdec
    obtain ⟨function, heq⟩ := decisionOn_unchanged (b := b) hdist (mem_sortedSet.mp hname)
    rw [heq]
    refine ⟨rfl, ?_⟩
    have hmissing : (b.cleanBuild m).state.cache.lookup
        (b.buildFunctionCacheKey b.settings (b.fingerprint function) false) = none := by
      unfold ArtifactCache.lookup
      split
      · rfl
      · refine Option.eq_none_iff_forall_ne_some.mpr fun bytes hentry => ?_
        obtain ⟨_, _, _, _, _, hkey, _⟩ := hholds _ _ hentry
        exact functionCacheKey_ne_dependencyKey hkey
    unfold makeArtifact
    rw [if_neg noConfusion, hmissing]
    exact if_pos rfl
  have hgone : (b.plan (b.cleanBuild m).state.snapshot m).functions.filter
      (·.action = .remove) = [] := by
    refine filter_eq_nil_iff.mpr fun decision hmem => ?_
    rw [(hdec decision hmem).1]
    decide
  have hwork : (b.plan (b.cleanBuild m).state.snapshot m).functions.filter
      (·.action ≠ .remove) = (b.plan (b.cleanBuild m).state.snapshot m).functions := by
    refine filter_eq_self.mpr fun decision hmem => ?_
    rw [(hdec decision hmem).1]
    decide
  have hperm := (b.interleave_perm (sortedDecisions
    (b.plan (b.cleanBuild m).state.snapshot m).functions)).trans (mergeSort_perm _ _)
  have hrun := decideAll_eq_map fun decision hmem =>
    (hdec decision (hperm.mem_iff.mp hmem)).2
  change (executeIncrementalBuildPlan (b.compile m) b.interleave
    (b.plan (b.cleanBuild m).state.snapshot m) (b.cleanBuild m).state.cache).1.failed ≠ 0
  unfold executeIncrementalBuildPlan
  rw [hgone, hwork]
  change (sortedResults (decideAll _ (b.interleave _) (b.cleanBuild m).state.cache).1).countP _ ≠ 0
  rw [hrun]
  intro hzero
  -- there is a function, and its decision has failed
  obtain ⟨name, hname⟩ := exists_mem_of_ne_nil _ hne
  have hmem : b.decisionOn (b.buildIncrementalSnapshot m) m name ∈
      (b.plan (b.cleanBuild m).state.snapshot m).functions := by
    rw [hplan]
    exact mem_map_of_mem (mem_sortedSet.mpr hname)
  rw [sortedResults, (mergeSort_perm _ _).countP_eq] at hzero
  exact countP_eq_zero.mp hzero _ (mem_map_of_mem (hperm.mem_iff.mpr hmem)) rfl

end Builder

/-- A history of two builds of one module is not correct, whatever the printer, the hash and the
compiler. -/
theorem not_correct_twice :
    verify (returnModule []) = [] ∧
      ∀ b : Builder, ¬ b.Correct [returnModule [], returnModule []] :=
  ⟨by decide, fun b h =>
    b.failed_twice (by decide) (by decide) h.2.1.1⟩

end Raz.Forge.Record
