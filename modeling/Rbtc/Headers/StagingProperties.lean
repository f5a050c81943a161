import Rbtc.Headers.DagProperties

/-! Staged header batches are atomic, and staged evictions keep the invariant. -/

namespace Rbtc.Headers

open Foundation Bitcoin Fixture HeaderDag List Option Table

variable {dag original : HeaderDag} {hash : BlockHash}

namespace HeaderDag

variable {crate : HeaderCrate}

@[simp] theorem removeRetainedHeader_headers (hash : BlockHash) :
    (dag.removeRetainedHeader hash).headers = dag.headers.erase hash := by
  unfold removeRetainedHeader
  split
  · next absent =>
    ext other : 1
    rw [lookup_erase]
    split
    · next same => rw [same, absent]
    · rfl
  · rfl

theorem removeRetainedHeader_counted {hash : BlockHash}
    (counted : ∀ counts, dag.childCounts = some counts → counts.Tallies (childCount dag.headers))
    (above : ∀ info, dag.headers.lookup hash = some info → 0 < info.height) :
    ∀ counts, (dag.removeRetainedHeader hash).childCounts = some counts →
      counts.Tallies (childCount (dag.removeRetainedHeader hash).headers) := by
  intro counts indexed
  cases found : dag.headers.lookup hash with
  | none =>
    simp only [removeRetainedHeader, found] at indexed ⊢
    exact counted counts indexed
  | some info =>
    simp only [removeRetainedHeader, found] at indexed ⊢
    obtain ⟨previous, known, rfl⟩ := map_eq_some_iff.mp indexed
    exact (counted previous known).decrement (childCount_erase found (above info found))

theorem foldl_removeRetainedHeader (dag : HeaderDag) (hashes : List BlockHash) :
    let removed := hashes.foldl removeRetainedHeader dag
    removed.headers = hashes.foldl (fun headers hash => headers.erase hash) dag.headers ∧
      removed.params = dag.params ∧ removed.deployments = dag.deployments ∧
      removed.activeChain = dag.activeChain ∧ removed.activeTip = dag.activeTip ∧
      (removed.childCounts = none ↔ dag.childCounts = none) := by
  induction hashes generalizing dag with
  | nil => exact ⟨rfl, rfl, rfl, rfl, rfl, Iff.rfl⟩
  | cons hash _ ih =>
    obtain ⟨headers, params, deployments, chain, tip, counts⟩ := ih (dag.removeRetainedHeader hash)
    rw [removeRetainedHeader_headers] at headers
    refine ⟨headers, params.trans ?_, deployments.trans ?_, chain.trans ?_, tip.trans ?_,
      counts.trans ?_⟩ <;> (unfold removeRetainedHeader; split <;> simp)

theorem foldl_removeRetainedHeader_counted (hashes : List BlockHash)
    (counted : ∀ counts, dag.childCounts = some counts → counts.Tallies (childCount dag.headers))
    (above : ∀ hash ∈ hashes, ∀ info, dag.headers.lookup hash = some info → 0 < info.height) :
    ∀ counts, (hashes.foldl removeRetainedHeader dag).childCounts = some counts →
      counts.Tallies (childCount (hashes.foldl removeRetainedHeader dag).headers) := by
  induction hashes generalizing dag with
  | nil => exact counted
  | cons hash _ ih =>
    refine ih (removeRetainedHeader_counted counted (above hash mem_cons_self)) ?_
    intro other member info found
    rw [removeRetainedHeader_headers] at found
    exact above other (.tail _ member) info (lookup_of_erase found)

def insertNextContextual (crate : HeaderCrate) (adjustedTime : Nat)
    (state : HeaderDag × List HeaderInfo) (header : Header) :
    Outcome HeaderError (HeaderDag × List HeaderInfo) := do
  let result ← state.1.insertContextual crate header adjustedTime
  return (result.1, state.2 ++ [result.2])

def insertEachContextual (crate : HeaderCrate) (dag : HeaderDag) (headers : List Header)
    (adjustedTime : Nat) : Outcome HeaderError (HeaderDag × List HeaderInfo) :=
  foldOutcome (insertNextContextual crate adjustedTime) (dag, []) headers

theorem insertionRebuildsActiveChain_spec (valid : dag.Valid crate) (header : Header) :
    ∃ rebuilds, dag.insertionRebuildsActiveChain crate header = .ok rebuilds ∧
      ∀ next info, dag.insert crate header = .ok (next, info) → rebuilds = false →
        dag.activeChain <+: next.activeChain := by
  obtain ⟨tip, tipInfo, tipFound⟩ := valid.activeTipInfo_eq
  unfold insertionRebuildsActiveChain
  cases found : dag.headers.lookup header.prevBlockhash with
  | none =>
    refine ⟨false, rfl, fun next info inserted _ => ?_⟩
    obtain ⟨rfl, ⟨parent, acceptable⟩, -⟩ := insert_retains valid inserted
    rw [acceptable.parent_found] at found
    cases found
  | some parent =>
    cases sum : checkedAdd 32 parent.height 1 with
    | none =>
      simp only [sum]
      refine ⟨false, rfl, fun next info inserted _ => ?_⟩
      obtain ⟨rfl, ⟨_, acceptable⟩, -⟩ := insert_retains valid inserted
      obtain rfl := mem_unique found acceptable.parent_found
      have fits := acceptable.admissible.fits
      rw [acceptable.admissible.height_eq] at fits
      rw [checkedAdd, if_pos fits] at sum
      cases sum
    | some _ =>
      simp only [sum, tipInfo]
      refine ⟨_, rfl, fun next info inserted kept => ?_⟩
      obtain ⟨rfl, ⟨_, acceptable⟩, retains⟩ := insert_retains valid inserted
      obtain rfl := mem_unique found acceptable.parent_found
      rw [← acceptable.admissible.chainwork_eq, (valid.rooted.keyed _ _ found).1,
        decide_eq_false_iff_not, not_and, not_not] at kept
      by_cases heavier : tip.chainwork < info.chainwork
      · rw [(retains.heavier tip tipFound heavier).2 (kept heavier).1]
        exact prefix_append _ _
      · rw [(retains.lighter tip tipFound (Nat.not_lt.mp heavier)).2]

end HeaderDag

/-- A batch staged over a DAG that a rollback restores. -/
structure StagesFrom (crate : HeaderCrate) (original : HeaderDag) (staged : StagedHeaderBatch) : Prop where
  valid : staged.dag.Valid crate
  tip_eq : staged.originalActiveTip = original.activeTip
  len_eq : staged.originalActiveLen = original.activeChain.length
  params_eq : staged.dag.params = original.params
  deployments_eq : staged.dag.deployments = original.deployments
  extended : ∀ hash info, original.headers.lookup hash = some info → staged.dag.headers.lookup hash = some info
  indexed : staged.dag.childCounts = none ↔ original.childCounts = none
  above : ∀ hash ∈ staged.inserted, ∀ info, staged.dag.headers.lookup hash = some info → 0 < info.height
  removed : staged.inserted.reverse.foldl (fun headers hash => headers.erase hash)
    staged.dag.headers = original.headers
  prefixed : staged.rebuiltActiveChain = false → original.activeChain <+: staged.dag.activeChain

namespace StagesFrom

variable {crate : HeaderCrate} {staged : StagedHeaderBatch}

theorem openBatch (valid : original.Valid crate) : StagesFrom crate original original.openBatch :=
  ⟨valid, rfl, rfl, rfl, rfl, fun _ _ found => found, Iff.rfl, nofun, rfl, fun _ => prefix_rfl⟩

variable (stages : StagesFrom crate original staged)
include stages

theorem rollback (valid : original.Valid crate) : staged.rollback = .ok original := by
  obtain ⟨headers, params, deployments, chain, -, counts⟩ :=
    foldl_removeRetainedHeader staged.dag staged.inserted.reverse
  have counted := foldl_removeRetainedHeader_counted staged.inserted.reverse
    stages.valid.counted fun hash member => stages.above hash (mem_reverse.mp member)
  unfold StagedHeaderBatch.rollback
  generalize staged.inserted.reverse.foldl removeRetainedHeader staged.dag = removed at *
  dsimp only
  rw [stages.removed] at headers
  rw [stages.params_eq] at params
  rw [stages.deployments_eq] at deployments
  rw [stages.indexed] at counts
  have sameCounts : removed.childCounts = original.childCounts := by
    cases before : original.childCounts with
    | none => exact counts.mpr before
    | some table =>
      cases after : removed.childCounts with
      | none => exact absurd (counts.mp after) (by simp [before])
      | some table' =>
        have tallies := counted table' after
        rw [headers] at tallies
        rw [tallies.unique (valid.counted table before)]
  obtain ⟨tip, tipFound, -⟩ := valid.tip_retained
  have tipHash := (valid.rooted.keyed _ _ tipFound).1
  rw [stages.tip_eq, headers, require_eq_ok.mpr tipFound, ok_bind]
  by_cases rebuilt : staged.rebuiltActiveChain
  · -- The former tip's lineage is found again below the entries that survive.
    have startsAtGenesis : removed.activeChain[0]? = some (genesisInfo crate original.deployments.network).hash := by
      rw [chain, ← stages.deployments_eq]
      exact stages.valid.genesis_active
    have rooted : Rooted crate original.params (genesisInfo crate original.deployments.network)
        removed.headers := headers ▸ valid.rooted
    obtain ⟨front, walked, lineage, -, last⟩ := rebuildWalk_spec removed rooted startsAtGenesis
      (fun index hash info onChain found _ => by
        rw [chain] at onChain ⊢
        rw [headers] at found ⊢
        exact stages.valid.active.restrict stages.extended (fun _ _ known positive =>
            (valid.rooted.parent_of_pos known positive).imp fun _ both => both.1) onChain found)
      (tip.height + 1) tip [] (by rw [headers, tipHash]; exact tipFound) (Nat.lt_succ_self _)
    rw [headers] at lineage
    rw [tipHash] at last
    obtain rfl : front = original.activeChain := lineage.unique valid.active last valid.tip
    rw [if_pos rebuilt, rebuildActiveChain, walked, ok_bind, pure_eq_ok]
    ext1 <;> simp [params, deployments, headers, sameCounts, tipHash]
  · have kept := stages.prefixed (by simpa using rebuilt)
    rw [if_neg rebuilt, pure_eq_ok]
    ext1 <;> simp only [params, deployments, sameCounts, chain, stages.len_eq]
    exact (prefix_iff_eq_take.mp kept).symm

theorem stageHeader {header : Header} {next : HeaderDag} {info : HeaderInfo} {rebuilds : Bool}
    (inserted : staged.dag.insert crate header = .ok (next, info))
    (predicted : rebuilds = false → staged.dag.activeChain <+: next.activeChain) : StagesFrom crate original
      { staged with
        dag := next
        accepted := staged.accepted ++ [info]
        inserted := staged.inserted ++ [info.hash]
        rebuiltActiveChain := staged.rebuiltActiveChain || rebuilds } := by
  obtain ⟨rfl, ⟨_, acceptable⟩, retains⟩ := insert_retains stages.valid inserted
  refine ⟨retains.valid, stages.tip_eq, stages.len_eq, retains.params_eq.trans stages.params_eq,
    retains.deployments_eq.trans stages.deployments_eq, fun hash found known => ?_, ?_,
    fun hash member found known => ?_, ?_, fun kept => ?_⟩
  · rw [retains.headers_eq]
    exact acceptable.stays (stages.extended hash found known)
  · rw [retains.childCounts_eq, map_eq_none_iff]
    exact stages.indexed
  · rw [retains.headers_eq, lookup_insert] at known
    split at known
    · cases known
      exact acceptable.admissible.height_eq ▸ Nat.succ_pos _
    · next other =>
      simp only [mem_append, mem_singleton, other, or_false] at member
      exact stages.above hash member found known
  · simp only [reverse_append, reverse_singleton, singleton_append,
      foldl_cons, retains.headers_eq, erase_insert_of_fresh acceptable.fresh]
    exact stages.removed
  · rw [Bool.or_eq_false_iff] at kept
    exact (stages.prefixed kept.1).trans (predicted kept.2)

/-- The staging loop keeps the bookkeeping and follows the contextual insertions: it ends with
their result, or stops with their error. -/
theorem stageLoop (headers : List Header) (adjustedTime : Nat) :
    match foldOutcome (fun staged header => HeaderDag.stageHeader crate staged header adjustedTime)
        staged headers with
    | .ok final => StagesFrom crate original final ∧
        foldOutcome (insertNextContextual crate adjustedTime)
          (staged.dag, staged.accepted) headers = .ok (final.dag, final.accepted)
    | .error (fault, final) => StagesFrom crate original final ∧
        foldOutcome (insertNextContextual crate adjustedTime) (staged.dag, staged.accepted) headers = .error fault ∧
        ∃ error, fault = .refused error := by
  induction headers generalizing staged with
  | nil => exact ⟨stages, rfl⟩
  | cons header _ ih =>
    obtain ⟨_, prediction, predicted⟩ := insertionRebuildsActiveChain_spec stages.valid header
    simp only [foldOutcome_cons, HeaderDag.stageHeader, prediction, HeaderDag.insertNextContextual]
    cases outcome : staged.dag.insertContextual crate header adjustedTime with
    | error fault =>
      cases fault with
      | refused error => exact ⟨stages, rfl, error, rfl⟩
      | panicked => exact absurd outcome (HeaderDag.insertContextual_safe stages.valid)
    | ok _ =>
      obtain ⟨-, inserted⟩ := HeaderDag.insertContextual_eq_ok.mp outcome
      exact ih (stages.stageHeader inserted (predicted _ _ inserted))

end StagesFrom

/-- Staged header batches are atomic. -/
theorem stageBatchContextual_atomic (crate : HeaderCrate) (dag : HeaderDag)
    (valid : dag.Valid crate) (headers : List Header) (adjustedTime : Nat) :
    match dag.stageBatchContextual crate headers adjustedTime with
    | .staged batch => batch.rollback = .ok dag ∧
        dag.insertEachContextual crate headers adjustedTime = .ok batch.commit
    | .refused error after => after = dag ∧
        dag.insertEachContextual crate headers adjustedTime = .error (.refused error)
    | .panicked => False := by
  have loop := (StagesFrom.openBatch valid).stageLoop headers adjustedTime
  unfold HeaderDag.stageBatchContextual
  split at loop
  · next final finished =>
    rw [finished]
    exact ⟨loop.1.rollback valid, loop.2⟩
  rename_i fault final stopped
  obtain ⟨stages, failed, _, rfl⟩ := loop
  simp only [stopped, stages.rollback valid]
  exact ⟨trivial, failed⟩

/-- A batch that extends the tip, opens a second branch and switches to it rolls back exactly. -/
theorem stageBatchContextual_rolls_back_reorganisation : ∃ batch, origin.stageBatchContextual crate
        [header 2, header 3, header 5] 10 = .staged batch ∧
      batch.rebuiltActiveChain = true ∧ batch.dag.activeTip = blockHash (header 5) ∧ batch.rollback = .ok origin := by
  have atomic := stageBatchContextual_atomic crate origin (valid_withDeployments crate deployments)
    [header 2, header 3, header 5] 10
  have evaluated : (origin.stageBatchContextual crate [header 2, header 3, header 5] 10).guard?.map
      (fun batch => (batch.rebuiltActiveChain, batch.dag.activeTip)) =
      some (true, blockHash (header 5)) := by decide
  split at atomic
  · next batch staged =>
    simp only [staged, StageResult.guard?, map_some, some.injEq, Prod.mk.injEq] at evaluated
    exact ⟨batch, staged, evaluated.1, evaluated.2, atomic.1⟩
  · next error after refused =>
    rw [refused] at evaluated
    cases evaluated
  · exact atomic.elim

theorem HeaderDag.Valid.stageBatchContextual_of_accepted {crate : HeaderCrate} {dag : HeaderDag}
    (valid : dag.Valid crate) {headers : List Header} {adjustedTime : Nat} {result : HeaderDag × List HeaderInfo}
    (accepted : dag.insertEachContextual crate headers adjustedTime = .ok result) :
    ∃ batch, dag.stageBatchContextual crate headers adjustedTime = .staged batch ∧ batch.commit = result := by
  have loop := (StagesFrom.openBatch valid).stageLoop headers adjustedTime
  unfold HeaderDag.stageBatchContextual
  split at loop
  · next final finished =>
    rw [finished]
    exact ⟨final, rfl, Except.ok.inj (loop.2.symm.trans accepted)⟩
  · next fault final stopped =>
    exact absurd (loop.2.1.symm.trans accepted) (by simp)

namespace HeaderDag

variable {crate : HeaderCrate}

theorem Valid.indexChildren (valid : dag.Valid crate) (hashes : List BlockHash) :
    (dag.indexChildren hashes).Valid crate := by
  unfold HeaderDag.indexChildren
  split
  · refine ⟨valid.params_eq, valid.rooted, valid.active, valid.tip, valid.heaviest, fun counts indexed => ?_⟩
    cases indexed
    exact buildChildCounts_tallies dag.headers
  · exact valid

theorem indexChildren_eq (hashes : List BlockHash) :
    ∃ counts, dag.indexChildren hashes = { dag with childCounts := counts } := by
  unfold HeaderDag.indexChildren
  split
  · exact ⟨_, rfl⟩
  · exact ⟨dag.childCounts, rfl⟩

theorem indexChildren_childCounts {hashes : List BlockHash} (nonempty : hashes ≠ []) :
    (dag.indexChildren hashes).childCounts ≠ none := by
  unfold indexChildren
  split
  · simp
  · next present =>
    intro absent
    exact present ⟨absent, nonempty⟩

variable {info : HeaderInfo}

theorem Valid.hasIndexedChild_eq_false (valid : dag.Valid crate) (indexed : dag.childCounts ≠ none) :
    dag.hasIndexedChild hash = false ↔ ∀ child, ¬ ChildOf dag.headers hash child := by
  obtain ⟨counts, present⟩ := ne_none_iff_exists'.mp indexed
  rw [← childCount_eq_zero]
  simp [hasIndexedChild, present, (valid.counted counts present).mem_iff]

variable (valid : dag.Valid crate) (found : dag.headers.lookup hash = some info)
include valid found

theorem Valid.activeHeightOf_eq_none : dag.activeHeightOf hash = none ↔ hash ∉ dag.activeChain := by
  simp only [activeHeightOf, found, bind_some, ite_eq_right_iff, reduceCtorEq]
  refine not_congr ⟨mem_of_getElem?, fun member => ?_⟩
  obtain ⟨_, onChain⟩ := mem_iff_getElem?.mp member
  rw [valid.active.depth_eq onChain found]
  exact onChain

theorem Valid.removeLeaf (notActive : hash ∉ dag.activeChain) (childless : ∀ child, ¬ ChildOf dag.headers hash child) :
    (dag.removeRetainedHeader hash).Valid crate := by
  have above : hash ≠ (genesisInfo crate dag.deployments.network).hash := by
    rintro rfl
    exact notActive (mem_of_getElem? valid.genesis_active)
  have kept : ∀ other, other ≠ hash → (dag.headers.erase hash).lookup other =
      dag.headers.lookup other := fun other distinct => by
    rw [lookup_erase, if_neg distinct]
  have counted := removeRetainedHeader_counted valid.counted
    fun info' (found') =>
      valid.rooted.height_pos found' above
  have erased : dag.removeRetainedHeader hash = { dag with
      headers := dag.headers.erase hash
      childCounts := dag.childCounts.map fun counts =>
        counts.decrement info.header.prevBlockhash } := by
    simp [removeRetainedHeader, found]
  rw [erased] at counted ⊢
  refine ⟨valid.params_eq, valid.rooted.erase above childless,
    ⟨fun index key onChain => ?_⟩, valid.tip, fun other info' tip known tipKnown => ?_, counted⟩
  · obtain ⟨node, nodeFound, rest⟩ := valid.active.entry index key onChain
    have distinct : key ≠ hash := fun same => notActive (same ▸ mem_of_getElem? onChain)
    exact ⟨node, (kept key distinct).trans nodeFound, rest⟩
  have tipDistinct : dag.activeTip ≠ hash := fun same =>
    notActive (same ▸ mem_of_getElem? valid.tip_mem)
  simp only [lookup_erase, if_neg tipDistinct] at known tipKnown
  split at known
  · cases known
  · exact valid.heaviest other info' tip known tipKnown

theorem Valid.restore_remove (above : 0 < info.height) :
    (dag.removeRetainedHeader hash).restoreRetainedHeader info = dag := by
  have hashed := (valid.rooted.keyed _ _ found).1
  simp only [restoreRetainedHeader]
  simp only [removeRetainedHeader, found, hashed, insert_erase_of_lookup found]
  ext1 <;> try rfl
  cases counts : dag.childCounts with
  | none => rfl
  | some table =>
    have tallies := valid.counted table counts
    have counted := childCount_erase found above
    simp only [map_some, some.injEq]
    exact ((tallies.decrement counted).increment counted).unique tallies

end HeaderDag

/-- An eviction staged over a DAG that can be restored. -/
structure EvictsFrom (crate : HeaderCrate) (original : HeaderDag) (stage : StagedHeaderEviction) : Prop where
  valid : stage.dag.Valid crate
  deployments_eq : stage.dag.deployments = original.deployments
  restored : stage.restore = original

/-- Retained headers off the active chain and not pinned, each listed once and after its children. -/
structure LeafFirst (headers : Table BlockHash HeaderInfo) (activeChain pinnedTips hashes : List BlockHash) : Prop where
  distinct : hashes.Nodup
  spare : ∀ hash ∈ hashes, hash ∈ headers ∧ hash ∉ activeChain ∧ hash ∉ pinnedTips
  children_first : ∀ earlier hash later, hashes = earlier ++ hash :: later →
    ∀ child, ChildOf headers hash child → child ∈ earlier

variable {crate : HeaderCrate} {headers : Table BlockHash HeaderInfo}
  {activeChain pinnedTips rest : List BlockHash} {stage : StagedHeaderEviction}

theorem childOf_erase {parent child : BlockHash} :
    ChildOf (headers.erase hash) parent child ↔ child ≠ hash ∧ ChildOf headers parent child := by
  simp only [ChildOf, lookup_erase]
  by_cases same : child = hash <;> simp [same]

theorem leafFirst_cons : LeafFirst headers activeChain pinnedTips (hash :: rest) ↔
    (hash ∈ headers ∧ (hash ∉ activeChain ∧ hash ∉ pinnedTips) ∧ ∀ child, ¬ ChildOf headers hash child) ∧
      LeafFirst (headers.erase hash) activeChain pinnedTips rest := by
  have kept : ∀ other, other ∈ headers.erase hash ↔ other ≠ hash ∧ other ∈ headers := fun _ => Finmap.mem_erase
  constructor
  · rintro ⟨distinct, spare, childrenFirst⟩
    obtain ⟨fresh, distinct⟩ := nodup_cons.mp distinct
    obtain ⟨retained, free⟩ := spare hash mem_cons_self
    refine ⟨⟨retained, free, fun child isChild => ?_⟩, distinct, fun other member => ?_,
      fun earlier other later split child isChild => ?_⟩
    · exact absurd (childrenFirst [] hash rest rfl child isChild) not_mem_nil
    · have apart : other ≠ hash := fun same => fresh (same ▸ member)
      exact (spare other (.tail _ member)).imp_left fun retained => (kept other).mpr ⟨apart, retained⟩
    · obtain ⟨apart, isChild⟩ := childOf_erase.mp isChild
      have listed := childrenFirst (hash :: earlier) other later (by rw [split]; rfl) child isChild
      exact (mem_cons.mp listed).resolve_left apart
  · rintro ⟨⟨retained, free, childless⟩, distinct, spare, childrenFirst⟩
    refine ⟨nodup_cons.mpr ⟨fun member => ?_, distinct⟩, fun other member => ?_,
      fun earlier other later split child isChild => ?_⟩
    · exact ((kept hash).mp (spare hash member).1).1 rfl
    · cases member with
      | head => exact ⟨retained, free⟩
      | tail _ member => exact (spare other member).imp_left fun retained => ((kept other).mp retained).2
    cases earlier with
    | nil =>
      cases split
      exact absurd isChild (childless child)
    | cons _ earlier =>
      cases split
      by_cases same : child = hash
      · exact same ▸ mem_cons_self
      · exact .tail _ (childrenFirst earlier other later rfl child (childOf_erase.mpr ⟨same, isChild⟩))

namespace HeaderDag

theorem stageEviction_eq_ok {next : StagedHeaderEviction} (valid : stage.dag.Valid crate)
    (indexed : stage.dag.childCounts ≠ none) : stageEviction pinnedTips stage hash = .ok next ↔
      ∃ info, stage.dag.headers.lookup hash = some info ∧
        ((hash ∉ stage.dag.activeChain ∧ hash ∉ pinnedTips) ∧ ∀ child, ¬ ChildOf stage.dag.headers hash child) ∧
        ⟨stage.dag.removeRetainedHeader hash, stage.removed ++ [info]⟩ = next := by
  simp only [stageEviction, bind_eq_ok, require_eq_ok, ensure_eq_ok, exists_const, pure_eq_ok,
    valid.hasIndexedChild_eq_false indexed, ← and_assoc]
  refine exists_congr fun info => ?_
  rw [and_congr_right fun found => valid.activeHeightOf_eq_none found]

theorem stageEviction_error {error : HeaderRetentionError} {held : StagedHeaderEviction}
    (failed : stageEviction pinnedTips stage hash = .error (error, held)) : held = stage := by
  unfold stageEviction require ensure at failed
  split at failed
  · split at failed
    · split at failed <;> cases failed
      rfl
    · cases failed
      rfl
  · cases failed
    rfl

end HeaderDag

variable {hashes : List BlockHash}

/-- The eviction loop works through exactly the lists in leaf-first order, and stops with the guard it has. -/
theorem EvictsFrom.evictLoop (evicts : EvictsFrom crate original stage) (pinnedTips : List BlockHash)
    (indexed : hashes ≠ [] → stage.dag.childCounts ≠ none) :
    match foldOutcome (stageEviction pinnedTips) stage hashes with
    | .ok final => EvictsFrom crate original final ∧
        LeafFirst stage.dag.headers stage.dag.activeChain pinnedTips hashes ∧
        final.dag = hashes.foldl removeRetainedHeader stage.dag
    | .error (_, final) => EvictsFrom crate original final ∧
        ¬ LeafFirst stage.dag.headers stage.dag.activeChain pinnedTips hashes := by
  induction hashes generalizing stage with
  | nil => exact ⟨evicts, ⟨.nil, nofun, by simp⟩, rfl⟩
  | cons hash rest ih =>
    have present := indexed (cons_ne_nil hash rest)
    rw [foldOutcome_cons, leafFirst_cons]
    cases stepped : stageEviction pinnedTips stage hash with
    | error failure =>
      obtain rfl := stageEviction_error stepped
      refine ⟨evicts, fun leafFirst => ?_⟩
      obtain ⟨info, found⟩ := mem_iff.mp leafFirst.1.1
      have accepted := (stageEviction_eq_ok evicts.valid present).mpr ⟨info, found, leafFirst.1.2, rfl⟩
      rw [stepped] at accepted
      cases accepted
    | ok _ =>
      obtain ⟨info, found, free, rfl⟩ := (stageEviction_eq_ok evicts.valid present).mp stepped
      have above : 0 < info.height := by
        refine evicts.valid.rooted.height_pos found fun isGenesis => free.1.1 ?_
        rw [isGenesis]
        exact mem_of_getElem? evicts.valid.genesis_active
      obtain ⟨-, -, deployments, chain, -, counts⟩ := foldl_removeRetainedHeader stage.dag [hash]
      simp only [foldl_cons, foldl_nil] at deployments chain counts
      have loop := @ih ⟨stage.dag.removeRetainedHeader hash, stage.removed ++ [info]⟩
        ⟨evicts.valid.removeLeaf found free.1.1 free.2, deployments.trans evicts.deployments_eq, by
          rw [← evicts.restored]
          simp [StagedHeaderEviction.restore, evicts.valid.restore_remove found above]⟩
        fun _ => mt counts.mp present
      simp only [removeRetainedHeader_headers, chain] at loop
      rw [ok_bind]
      generalize foldOutcome (stageEviction pinnedTips) _ rest = outcome at loop ⊢
      match outcome, loop with
      | .ok final, ⟨finalEvicts, leafFirst, removed⟩ =>
        exact ⟨finalEvicts, ⟨⟨mem_of_lookup found, free⟩, leafFirst⟩, removed⟩
      | .error (_, final), ⟨finalEvicts, stuck⟩ => exact ⟨finalEvicts, fun leafFirst => stuck leafFirst.2⟩

namespace HeaderDag

structure Evictable (dag : HeaderDag) (hashes pinnedTips : List BlockHash) (maxEntries : Nat) : Prop where
  fits : hashes.length ≤ maxEntries
  pins_known : ∀ pinned ∈ pinnedTips, pinned ∈ dag.headers
  leafFirst : LeafFirst dag.headers dag.activeChain pinnedTips hashes

theorem Valid.stageLeafEvictions {dag : HeaderDag} (valid : dag.Valid crate) (hashes pinnedTips : List BlockHash)
    (maxEntries : Nat) : match dag.stageLeafEvictions hashes pinnedTips maxEntries with
    | .staged stage => dag.Evictable hashes pinnedTips maxEntries ∧
        EvictsFrom crate (dag.indexChildren hashes) stage ∧
        (∀ hash, stage.dag.headers.lookup hash = if hash ∈ hashes then none else dag.headers.lookup hash) ∧
        stage.dag.activeChain = dag.activeChain ∧ stage.dag.activeTip = dag.activeTip ∧
        foldOutcome (stageEviction pinnedTips) ⟨dag.indexChildren hashes, []⟩ hashes = .ok stage
    | .refused _ after => ¬ dag.Evictable hashes pinnedTips maxEntries ∧
        (after = dag ∨ after = dag.indexChildren hashes)
    | .panicked => False := by
  have opened : EvictsFrom crate (dag.indexChildren hashes) ⟨dag.indexChildren hashes, []⟩ :=
    ⟨valid.indexChildren hashes, rfl, rfl⟩
  have loop := opened.evictLoop pinnedTips indexChildren_childCounts
  obtain ⟨headers, -, -, chain, tip, -⟩ := foldl_removeRetainedHeader (dag.indexChildren hashes) hashes
  obtain ⟨_, same⟩ := @indexChildren_eq dag hashes
  have sameHeaders : (dag.indexChildren hashes).headers = dag.headers := by rw [same]
  have sameChain : (dag.indexChildren hashes).activeChain = dag.activeChain := by rw [same]
  simp only [sameHeaders, sameChain] at loop headers chain
  unfold HeaderDag.stageLeafEvictions
  by_cases tooMany : maxEntries < hashes.length
  · rw [if_pos tooMany]
    exact ⟨fun evictable => absurd evictable.fits (Nat.not_le.mpr tooMany), .inl rfl⟩
  rw [if_neg tooMany]
  cases unknown : pinnedTips.find? fun hash => dag.headers.lookup hash = none with
  | some pinned =>
    have missing : dag.headers.lookup pinned = none := by simpa using find?_some unknown
    exact ⟨fun evictable => not_mem_iff.mpr missing
      (evictable.pins_known pinned (mem_of_find?_eq_some unknown)), .inl rfl⟩
  | none =>
    have known : ∀ pinned ∈ pinnedTips, pinned ∈ dag.headers := by
      simpa [← not_mem_iff] using unknown
    split at loop
    · next final finished =>
      obtain ⟨evicts, leafFirst, removed⟩ := loop
      rw [finished]
      rw [← removed] at headers chain tip
      refine ⟨⟨Nat.not_lt.mp tooMany, known, leafFirst⟩, evicts, fun hash => ?_, chain, ?_, rfl⟩
      · rw [headers]
        exact lookup_eraseAll dag.headers hashes hash
      · rw [tip, same]
    · next final stopped =>
      rw [stopped]
      exact ⟨fun evictable => loop.2 evictable.leafFirst, .inr loop.1.restored⟩

end HeaderDag

end Rbtc.Headers
