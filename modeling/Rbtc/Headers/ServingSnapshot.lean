import Rbtc.Headers.Context

/-! Serving snapshots: copies of a DAG's active chain that are refreshed in place. -/

namespace Rbtc.Headers

open Foundation Bitcoin List Fixture

namespace HeaderDag

section
variable (dag : HeaderDag)

/-- Copies the header of an active hash; indexing the map panics when it is absent. -/
def copyHeader (headers : Table BlockHash HeaderInfo) (hash : BlockHash) :
    Outcome HeaderError (Table BlockHash HeaderInfo) := do
  let info ← require (dag.headers.lookup hash) .panicked
  return headers.insert hash info

def activeChainSnapshot : Outcome HeaderError HeaderDag := do
  let headers ← foldOutcome dag.copyHeader ∅ dag.activeChain
  return { dag with headers, childCounts := none }

/-- The scan of `refresh_active_chain_snapshot` down to a position where the chains agree. -/
def sharedLen (left right : List BlockHash) : Nat → Nat
  | 0 => 0
  | length + 1 => if left[length]? = right[length]? then length + 1 else sharedLen left right length

def refreshActiveChainSnapshot (snapshot : HeaderDag) : Outcome HeaderError HeaderDag :=
  if snapshot.headers.keys.card ≠ snapshot.activeChain.length ∨
      snapshot.activeChain[0]? ≠ dag.activeChain[0]? then dag.activeChainSnapshot
  else do
    let length := sharedLen snapshot.activeChain dag.activeChain
      (min snapshot.activeChain.length dag.activeChain.length)
    let kept := snapshot.headers.eraseAll (snapshot.activeChain.drop length)
    let headers ← foldOutcome dag.copyHeader kept (dag.activeChain.drop length)
    return { dag with
      headers
      childCounts := none
      activeChain := snapshot.activeChain.take length ++ dag.activeChain.drop length }

end

variable {crate : HeaderCrate} {dag source : HeaderDag}

theorem foldOutcome_copyHeader {headers : Table BlockHash HeaderInfo} {hashes : List BlockHash}
    (present : ∀ hash ∈ hashes, ∃ info, dag.headers.lookup hash = some info) :
    ∃ copied, foldOutcome dag.copyHeader headers hashes = .ok copied ∧ ∀ hash,
      copied.lookup hash = if hash ∈ hashes then dag.headers.lookup hash else headers.lookup hash := by
  induction hashes generalizing headers with
  | nil => exact ⟨headers, rfl, fun _ => by simp⟩
  | cons first _ ih =>
    obtain ⟨info, found⟩ := present first mem_cons_self
    obtain ⟨copied, isCopied, shows⟩ := @ih (headers.insert first info) fun hash member =>
      present hash (.tail _ member)
    refine ⟨copied, ?_, fun hash => ?_⟩
    · rw [foldOutcome_cons, copyHeader, require_eq_ok.mpr found]
      exact isCopied
    rw [shows, Table.lookup_insert]
    by_cases same : hash = first
    · simp [same, found]
    · simp [same]

theorem sharedLen_agrees {left right : List BlockHash} (length : Nat) {last : Nat}
    (reached : sharedLen left right length = last + 1) : last < length ∧ left[last]? = right[last]? := by
  induction length with
  | zero => cases reached
  | succ _ ih =>
    rw [sharedLen] at reached
    split at reached
    · next agree =>
      cases reached
      exact ⟨Nat.lt_succ_self _, agree⟩
    · exact (ih reached).imp_left Nat.lt_succ_of_lt

namespace Valid

variable (valid : dag.Valid crate)
include valid

theorem active_found {hash : BlockHash} (active : hash ∈ dag.activeChain) :
    ∃ info, dag.headers.lookup hash = some info := by
  obtain ⟨index, onChain⟩ := mem_iff_getElem?.mp active
  obtain ⟨info, found, -⟩ := valid.active.entry index hash onChain
  exact ⟨info, found⟩

theorem activeChainSnapshot : ∃ copied,
    dag.activeChainSnapshot = .ok { dag with headers := copied, childCounts := none } ∧
      ∀ hash, copied.lookup hash = if hash ∈ dag.activeChain then dag.headers.lookup hash else none := by
  obtain ⟨copied, isCopied, shows⟩ := @foldOutcome_copyHeader dag ∅ _ fun _ => valid.active_found
  refine ⟨copied, ?_, shows⟩
  rw [HeaderDag.activeChainSnapshot, isCopied]
  rfl

variable (collisionFree : CollisionFree crate) (sourceValid : source.Valid crate)
  (start : source.activeChain[0]? = dag.activeChain[0]?)
include collisionFree sourceValid start

/-- Chains that start at one genesis hold the same metadata under their common hashes. -/
theorem info_eq_of_start {hash : BlockHash} {info info' : HeaderInfo}
    (found : source.headers.lookup hash = some info) (found' : dag.headers.lookup hash = some info') :
    info = info' := by
  rw [sourceValid.genesis_active, valid.genesis_active, Option.some.injEq] at start
  have sameGenesis : genesisInfo crate dag.deployments.network = genesisInfo crate source.deployments.network := by
    simp [genesisInfo, collisionFree.injective start]
  refine sourceValid.rooted.info_eq (sameGenesis ▸ valid.rooted) (fun hash info info' known known' => ?_)
    found found'
  apply collisionFree.injective
  rw [(sourceValid.rooted.keyed _ _ known).2, (valid.rooted.keyed _ _ known').2]

theorem take_sharedLen : source.activeChain.take (sharedLen source.activeChain dag.activeChain
      (min source.activeChain.length dag.activeChain.length)) =
    dag.activeChain.take (sharedLen source.activeChain dag.activeChain
      (min source.activeChain.length dag.activeChain.length)) := by
  cases reached : sharedLen source.activeChain dag.activeChain
      (min source.activeChain.length dag.activeChain.length) with
  | zero => rfl
  | succ _ =>
    obtain ⟨inside, agree⟩ := sharedLen_agrees _ reached
    have atLast := getElem?_eq_getElem (Nat.lt_of_lt_of_le inside (Nat.min_le_right _ _))
    exact sourceValid.active.take_eq valid.active
      (fun _ _ _ => info_eq_of_start valid collisionFree sourceValid start) (agree.trans atLast) atLast

omit start in
theorem refreshActiveChainSnapshot_eq {snapshot : HeaderDag} (taken : source.activeChainSnapshot = .ok snapshot) :
    dag.refreshActiveChainSnapshot snapshot = dag.activeChainSnapshot := by
  obtain ⟨copied, isCopied, shows⟩ := sourceValid.activeChainSnapshot
  cases taken.symm.trans isCopied
  unfold refreshActiveChainSnapshot
  split
  · rfl
  rename_i follows
  have start := not_not.mp (not_or.mp follows).2
  have shared := take_sharedLen valid collisionFree sourceValid start
  dsimp only
  generalize sharedLen source.activeChain dag.activeChain _ = length at shared ⊢
  obtain ⟨fresh, isFresh, freshShows⟩ := valid.activeChainSnapshot
  obtain ⟨refreshed, isRefreshed, refreshedShows⟩ := @foldOutcome_copyHeader dag
    (copied.eraseAll (source.activeChain.drop length)) (dag.activeChain.drop length)
    fun hash member => valid.active_found (mem_of_mem_drop member)
  have split : ∀ (chain : List BlockHash) hash, hash ∈ chain ↔ hash ∈ chain.take length ∨ hash ∈ chain.drop length := by
    intro chain hash
    rw [← mem_append, take_append_drop]
  have sameHeaders : refreshed = fresh := by
    ext hash : 1
    rw [refreshedShows, freshShows, Table.lookup_eraseAll, shows]
    by_cases added : hash ∈ dag.activeChain.drop length
    · rw [if_pos added, if_pos (mem_of_mem_drop added)]
    rw [if_neg added]
    by_cases dropped : hash ∈ source.activeChain.drop length
    · have unshared := disjoint_take_drop sourceValid.active.nodup (Nat.le_refl length)
      rw [if_pos dropped, if_neg]
      intro active
      exact unshared (shared ▸ ((split _ hash).mp active).resolve_right added) dropped
    rw [if_neg dropped]
    have both : hash ∈ source.activeChain ↔ hash ∈ dag.activeChain := by
      rw [split, split dag.activeChain, shared, or_iff_left dropped, or_iff_left added]
    by_cases active : hash ∈ dag.activeChain
    · obtain ⟨_, found⟩ := sourceValid.active_found (both.mpr active)
      obtain ⟨_, found'⟩ := valid.active_found active
      rw [if_pos (both.mpr active), if_pos active, found, found',
        info_eq_of_start valid collisionFree sourceValid start found found']
    · rw [if_neg (mt both.mp active), if_neg active]
  rw [isFresh, isRefreshed, ok_bind, shared, take_append_drop, sameHeaders]
  rfl

end Valid

/-- The serving snapshots: taken from a DAG and refreshed from any DAGs afterwards. -/
inductive Served (crate : HeaderCrate) : HeaderDag → Prop where
  | taken {source snapshot : HeaderDag} (valid : source.Valid crate)
      (copied : source.activeChainSnapshot = .ok snapshot) : Served crate snapshot
  | refreshed {source snapshot next : HeaderDag} (valid : source.Valid crate) (served : Served crate snapshot)
      (copied : source.refreshActiveChainSnapshot snapshot = .ok next) : Served crate next

theorem Served.exists_source (collisionFree : CollisionFree crate) {snapshot : HeaderDag}
    (served : Served crate snapshot) :
    ∃ source : HeaderDag, source.Valid crate ∧ source.activeChainSnapshot = .ok snapshot := by
  induction served with
  | @taken source _ valid copied => exact ⟨source, valid, copied⟩
  | @refreshed source _ _ valid _ copied ih =>
    obtain ⟨_, beforeValid, taken⟩ := ih
    rw [valid.refreshActiveChainSnapshot_eq collisionFree beforeValid taken] at copied
    exact ⟨source, valid, copied⟩

/-- Refreshing a serving snapshot is rebuilding it, and neither panics. -/
theorem refresh_rebuilds_snapshot (crate : HeaderCrate) (collisionFree : CollisionFree crate) (dag snapshot : HeaderDag)
    (valid : dag.Valid crate) (served : Served crate snapshot) :
    ∃ fresh, dag.activeChainSnapshot = .ok fresh ∧ dag.refreshActiveChainSnapshot snapshot = .ok fresh := by
  obtain ⟨_, sourceValid, taken⟩ := served.exists_source collisionFree
  obtain ⟨_, isCopied, -⟩ := valid.activeChainSnapshot
  exact ⟨_, isCopied, (valid.refreshActiveChainSnapshot_eq collisionFree sourceValid taken).trans isCopied⟩

theorem refresh_rebuilds_snapshot_after_reorganisation : ∃ before dag snapshot fresh : HeaderDag,
    before.activeChain = [⟨2⟩, ⟨6⟩] ∧ dag.activeChain = [⟨2⟩, ⟨8⟩, ⟨12⟩] ∧ before.activeChainSnapshot = .ok snapshot ∧
      dag.activeChainSnapshot = .ok fresh ∧ dag.refreshActiveChainSnapshot snapshot = .ok fresh := by
  have origin := valid_withDeployments Fixture.crate Fixture.deployments
  obtain ⟨before, ran, valid, -⟩ := run_valid origin ((branch 0 1).map .insert)
  obtain ⟨dag, ran', valid', -⟩ := run_valid valid ((branch 1 2).map .insert)
  have chains : (Fixture.origin.run Fixture.crate ((branch 0 1).map .insert)).toOption.all (fun before =>
      before.activeChain = [⟨2⟩, ⟨6⟩] ∧ (before.run Fixture.crate ((branch 1 2).map .insert)).toOption.all
        fun dag => dag.activeChain = [⟨2⟩, ⟨8⟩, ⟨12⟩]) = true := by decide
  rw [show Fixture.origin.run Fixture.crate _ = .ok before from ran] at chains
  simp only [Except.toOption, Option.all_some, ran', decide_eq_true_eq] at chains
  obtain ⟨_, taken, -⟩ := valid.activeChainSnapshot
  obtain ⟨fresh, isFresh, refreshed⟩ := refresh_rebuilds_snapshot Fixture.crate Fixture.collisionFree dag _ valid'
    (.taken valid taken)
  exact ⟨before, dag, _, fresh, chains.1, chains.2, taken, isFresh, refreshed⟩

end HeaderDag

end Rbtc.Headers
