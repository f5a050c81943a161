import Rbtc.Chainstate.CoreRules
import Rbtc.Foundation.Windows
import Rbtc.Headers.DagRuns

/-! Median time past never decreases from a header to its descendants. -/

namespace Rbtc.Headers

open Foundation Bitcoin Chainstate Fixture Option HeaderDag

namespace HeaderDag

variable {crate : HeaderCrate} {dag next : HeaderDag} {hash : BlockHash} {info parent : HeaderInfo}

theorem ancestorTimes_take (dag : HeaderDag) (count : Nat) (info : HeaderInfo) :
    dag.ancestorTimes count info = (dag.ancestorTimes (count + 1) info).take (count + 1) := by
  induction count generalizing info with
  | zero => simp [ancestorTimes]
  | succ _ ih =>
    rw [ancestorTimes, ancestorTimes]
    cases dag.headers.lookup info.header.prevBlockhash with
    | none => rfl
    | some parent => exact congrArg _ (ih parent)

theorem length_ancestorTimes (dag : HeaderDag) (count : Nat) (info : HeaderInfo) :
    (dag.ancestorTimes count info).length ≤ count + 1 := by
  rw [ancestorTimes_take, List.length_take]
  exact Nat.min_le_left ..

theorem medianTimePast_eq (found : dag.headers.lookup hash = some info) :
    dag.medianTimePast hash = some (upperMedian (dag.ancestorTimes 10 info) 0) := by
  rw [medianTimePast, found]
  rfl

/-- Every header is later than the median time past of its parent. -/
def Timely (dag : HeaderDag) : Prop :=
  ∀ hash info parent, dag.headers.lookup hash = some info → dag.headers.lookup info.header.prevBlockhash = some parent →
    upperMedian (dag.ancestorTimes 10 parent) 0 < info.header.time

theorem Timely.median_le (timely : dag.Timely) (found : dag.headers.lookup hash = some info)
    (isParent : dag.headers.lookup info.header.prevBlockhash = some parent) :
    upperMedian (dag.ancestorTimes 10 parent) 0 ≤ upperMedian (dag.ancestorTimes 10 info) 0 := by
  have window : dag.ancestorTimes 10 info = info.header.time :: (dag.ancestorTimes 10 parent).take 10 := by
    rw [← ancestorTimes_take, ancestorTimes, isParent]
  rw [window]
  refine upperMedian_le_push ?_ (dag.length_ancestorTimes 10 parent) (timely hash info parent found isParent).le
  exact List.cons_ne_nil _ _

section
variable (rootless : ∀ header, crate.blockHash header ≠ (crate.genesisHeader dag.deployments.network).prevBlockhash)
  (valid : dag.Valid crate) (retains : Retains crate dag info next) (acceptable : Acceptable crate dag parent info)
include rootless valid retains acceptable

-- Nothing hashes to the parent of genesis, so an insertion gives no retained header a new parent.
theorem lookup_parent_insert {key : BlockHash} {known : HeaderInfo} (found : dag.headers.lookup key = some known) :
    next.headers.lookup known.header.prevBlockhash = dag.headers.lookup known.header.prevBlockhash := by
  rw [retains.headers_eq, Table.lookup_insert, if_neg]
  intro same
  by_cases isGenesis : key = (genesisInfo crate dag.deployments.network).hash
  · rw [isGenesis, valid.rooted.root, some.injEq] at found
    rw [← found, ← acceptable.hashed] at same
    exact rootless _ same.symm
  · obtain ⟨_, isOlder, -⟩ := valid.rooted.linked key known found isGenesis
    rw [same, acceptable.fresh] at isOlder
    cases isOlder

theorem ancestorTimes_insert (count : Nat) {key : BlockHash} {known : HeaderInfo}
    (found : dag.headers.lookup key = some known) : next.ancestorTimes count known = dag.ancestorTimes count known := by
  induction count generalizing key known with
  | zero => rfl
  | succ _ ih =>
    rw [ancestorTimes, ancestorTimes, lookup_parent_insert rootless valid retains acceptable found]
    cases older : dag.headers.lookup known.header.prevBlockhash with
    | none => rfl
    | some _ => exact congrArg _ (ih older)

theorem Timely.insert (timely : dag.Timely) (late : upperMedian (dag.ancestorTimes 10 parent) 0 < info.header.time) :
    next.Timely := by
  have same := @ancestorTimes_insert _ _ _ _ _ rootless valid retains acceptable 10
  intro key known older found isOlder
  rw [retains.headers_eq, Table.lookup_insert] at found
  split at found
  · cases found
    have stays := retains.headers_eq ▸ acceptable.stays acceptable.parent_found
    obtain rfl := mem_unique stays isOlder
    rwa [same acceptable.parent_found]
  · rw [lookup_parent_insert rootless valid retains acceptable found] at isOlder
    rw [same isOlder]
    exact timely key known older found isOlder

end

theorem Timely.perform (valid : dag.Valid crate) (timely : dag.Timely)
    (rootless : ∀ header, crate.blockHash header ≠ (crate.genesisHeader dag.deployments.network).prevBlockhash)
    {header : Header} {adjustedTime : Nat}
    (performed : dag.perform crate (.insertContextual header adjustedTime) = .ok next) : next.Timely := by
  simp only [HeaderDag.perform, afterInsertion] at performed
  split at performed
  · next final info accepted =>
    cases performed
    obtain ⟨checked, inserted⟩ := insertContextual_eq_ok.mp accepted
    obtain ⟨rfl, ⟨_, acceptable⟩, retains⟩ := insert_retains valid inserted
    simp only [validateContext, bind_eq_ok, require_eq_ok, ensure_eq_ok] at checked
    obtain ⟨-, -, _, isKnown, -, -, -, -, -, -, _, isMedian, -, late, -⟩ := checked
    obtain rfl := mem_unique acceptable.parent_found isKnown
    rw [(valid.rooted.keyed _ _ isKnown).1, medianTimePast_eq isKnown, some.injEq] at isMedian
    exact timely.insert rootless valid retains acceptable (isMedian ▸ late)
  · cases performed
    exact timely
  · cases performed

theorem timely_withDeployments (deployments : DeploymentConfig)
    (rootless : ∀ header, crate.blockHash header ≠ (crate.genesisHeader deployments.network).prevBlockhash) :
    (withDeployments crate deployments).Timely := by
  intro hash info parent found isParent
  simp only [withDeployments, Table.lookup_singleton] at found isParent
  split at found
  · cases found
    split at isParent
    · next same => exact absurd same.symm (rootless _)
    · cases isParent
  · cases found

theorem Timely.walk (timely : dag.Timely) {rounds : Nat} {ancestor : HeaderInfo}
    (found : dag.headers.lookup hash = some info) (walked : dag.ancestorWalk rounds info = some ancestor) :
    (∃ key, dag.headers.lookup key = some ancestor) ∧
      upperMedian (dag.ancestorTimes 10 ancestor) 0 ≤ upperMedian (dag.ancestorTimes 10 info) 0 := by
  induction rounds generalizing hash info with
  | zero =>
    cases walked
    exact ⟨⟨hash, found⟩, le_rfl⟩
  | succ _ ih =>
    obtain ⟨_, isParent, rest⟩ := bind_eq_some_iff.mp walked
    obtain ⟨known, lower⟩ := ih isParent rest
    exact ⟨known, lower.trans (timely.median_le found isParent)⟩

end HeaderDag

/-- Median time past never decreases along a branch, so what it once satisfied stays satisfied above. -/
theorem medianTimePast_monotone (crate : HeaderCrate) (deployments : DeploymentConfig)
    (rootless : ∀ header, crate.blockHash header ≠ (crate.genesisHeader deployments.network).prevBlockhash)
    (operations : List DagOperation) (contextual : ∀ operation ∈ operations,
      ∃ header adjustedTime, operation = .insertContextual header adjustedTime)
    (dag : HeaderDag) (reached : (withDeployments crate deployments).run crate operations = .ok dag)
    (hash : BlockHash) (info : HeaderInfo) (found : dag.headers.lookup hash = some info)
    (rounds : Nat) (ancestor : HeaderInfo) (walked : dag.ancestorWalk rounds info = some ancestor) :
    ∃ before after, dag.medianTimePast ancestor.hash = some before ∧ dag.medianTimePast hash = some after ∧
      before ≤ after ∧ (∀ start, start ≤ before → start ≤ after) ∧
      ∀ sequence outpoint utxo height later, checkSequenceLock sequence outpoint utxo height before = .ok () →
        height ≤ later → checkSequenceLock sequence outpoint utxo later after = .ok () := by
  have preserved : ∀ (dag : HeaderDag) operation next, operation ∈ operations →
      dag.Valid crate ∧ dag.deployments = deployments ∧ dag.Timely → dag.perform crate operation = .ok next →
      next.Valid crate ∧ next.deployments = deployments ∧ next.Timely := by
    rintro dag operation next member ⟨valid, rfl, timely⟩ performed
    obtain ⟨header, adjustedTime, rfl⟩ := contextual operation member
    obtain ⟨_, performed', nextValid, same⟩ := perform_valid valid (.insertContextual header adjustedTime)
    cases performed.symm.trans performed'
    exact ⟨nextValid, same, timely.perform valid rootless performed⟩
  obtain ⟨valid, -, timely⟩ := foldOutcome_invariant preserved
    ⟨valid_withDeployments crate deployments, rfl, timely_withDeployments deployments rootless⟩ reached
  obtain ⟨⟨_, isKey⟩, ordered⟩ := timely.walk found walked
  have keyed := isKey
  rw [← (valid.rooted.keyed _ _ isKey).1] at keyed
  exact ⟨_, _, medianTimePast_eq keyed, medianTimePast_eq found, ordered,
    fun start satisfied => satisfied.trans ordered,
    fun _ _ _ _ _ unlocked higher => checkSequenceLock_mono unlocked higher ordered⟩

/-- Two headers above genesis: the median time past went from 1 to 2. -/
theorem medianTimePast_monotone_above_genesis : ∃ dag, origin.run crate
      [.insertContextual (header 2) 10, .insertContextual (header 4) 10] = .ok dag ∧
    ∃ before after, dag.medianTimePast ⟨2⟩ = some before ∧ dag.medianTimePast ⟨10⟩ = some after ∧ before ≤ after := by
  obtain ⟨dag, ran, info, found, ancestor, walked, lowest⟩ : ∃ dag, origin.run crate
      [.insertContextual (header 2) 10, .insertContextual (header 4) 10] = .ok dag ∧
      ∃ info, dag.headers.lookup ⟨10⟩ = some info ∧
        ∃ ancestor, dag.ancestorWalk 2 info = some ancestor ∧ ancestor.hash = ⟨2⟩ :=
    ⟨_, rfl, _, rfl, _, rfl, rfl⟩
  have rootless : ∀ header, crate.blockHash header ≠ ⟨0⟩ := by
    intro header same
    simp only [crate, blockHash] at same
    split at same <;> simp at same
  obtain ⟨before, after, isBefore, isAfter, ordered, -⟩ := medianTimePast_monotone crate deployments
    rootless _ (by simp) dag ran ⟨10⟩ info found 2 ancestor walked
  exact ⟨dag, ran, before, after, lowest ▸ isBefore, isAfter, ordered⟩

end Rbtc.Headers
