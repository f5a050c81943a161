import Rbtc.Chainstate.ChainStore

/-! The execution metadata of a chainstate (`execution_store.rs`), where an error drops what was staged,
and the validation ceiling as an invariant of every run. -/

namespace Rbtc.Chainstate

open Foundation Bitcoin

structure AssumedSnapshot where
  base : ExecutionTip
  utxoCount : Nat
  recordsBytes : Nat
  recordsSha256 : Nat
  utxoSetSha256 : Nat
  deriving DecidableEq, Repr

/-- The metadata table. The keys of an assumed snapshot are stored and removed one by one. -/
structure ExecutionStore where
  genesis : BlockHash
  tip : ExecutionTip
  assumedSnapshotBase : Option ExecutionTip
  assumedSnapshotRecords : Option Nat
  assumedSnapshotCount : Option Nat
  assumedSnapshotBytes : Option Nat
  assumedSnapshotUtxoSet : Option Nat
  snapshotOrigin : Option ExecutionTip
  validationTarget : Option ExecutionTip
  deriving DecidableEq, Repr

namespace ExecutionStore

def fresh (genesis : BlockHash) : ExecutionStore :=
  { genesis
    tip := ⟨0, genesis⟩
    assumedSnapshotBase := none
    assumedSnapshotRecords := none
    assumedSnapshotCount := none
    assumedSnapshotBytes := none
    assumedSnapshotUtxoSet := none
    snapshotOrigin := none
    validationTarget := none }

variable (store : ExecutionStore)

def Unassumed : Prop :=
  store.assumedSnapshotBase = none ∧ store.assumedSnapshotRecords = none ∧
    store.assumedSnapshotCount = none ∧ store.assumedSnapshotBytes = none ∧ store.assumedSnapshotUtxoSet = none

instance (store : ExecutionStore) : Decidable store.Unassumed :=
  inferInstanceAs (Decidable (_ ∧ _))

def decodeAssumedSnapshot :
    Except ExecutionStoreError (Option AssumedSnapshot) :=
  if store.Unassumed then .ok none
  else do
    let incomplete := ExecutionStoreError.malformed "incomplete assumed snapshot identity"
    let base ← require store.assumedSnapshotBase incomplete
    let recordsSha256 ← require store.assumedSnapshotRecords incomplete
    let utxoCount ← require store.assumedSnapshotCount incomplete
    let recordsBytes ← require store.assumedSnapshotBytes incomplete
    let utxoSetSha256 ← require store.assumedSnapshotUtxoSet incomplete
    return some { base, utxoCount, recordsBytes, recordsSha256, utxoSetSha256 }

/-- The store with a target it does not hold yet, or holds already. -/
def stageValidationTarget (requested : ExecutionTip) :
    Except ExecutionStoreError ExecutionStore :=
  match store.validationTarget with
  | some stored => do
      ensure (stored = requested) (.validationTargetMismatch stored requested)
      return store
  | none => .ok { store with validationTarget := some requested }

/-- The target is staged before the tip at its height is compared with it. -/
def bindValidationTarget (requested : ExecutionTip) :
    Except ExecutionStoreError ExecutionStore := do
  ensure (requested.height ≠ 0) (.malformed "validation target cannot be genesis")
  let assumed ← store.decodeAssumedSnapshot
  ensure (assumed = none) .validationTargetOnAssumedChainstate
  ensure (store.tip.height ≤ requested.height) (.validationTargetBehindTip requested.height store.tip.height)
  let staged ← store.stageValidationTarget requested
  ensure (¬ (store.tip.height = requested.height ∧ store.tip.hash ≠ requested.hash))
    (.validationTargetMismatch store.tip requested)
  return staged

def extendValidationTarget (requested : ExecutionTip) :
    Except ExecutionStoreError ExecutionStore := do
  ensure (requested.height ≠ 0) (.malformed "validation target cannot be genesis")
  let assumed ← store.decodeAssumedSnapshot
  ensure (assumed = none) .validationTargetOnAssumedChainstate
  let stored ← require store.validationTarget .validationTargetExtensionUnbound
  if requested = stored then return store
  else do
    ensure (stored.height < requested.height)
      (.validationTargetExtensionNotForward stored.height requested.height)
    ensure (store.tip = stored) (.validationTargetExtensionIncomplete stored store.tip)
    return { store with validationTarget := some requested }

def clearCompletedValidationTarget (expected : ExecutionTip) :
    Except ExecutionStoreError ExecutionStore := do
  let stored ← require store.validationTarget .validationTargetExtensionUnbound
  ensure (stored = expected ∧ store.tip = expected) (.validationTargetMismatch stored expected)
  return { store with validationTarget := none }

def advance (expectedParent : BlockHash) (next : ExecutionTip) :
    Except ExecutionStoreError ExecutionStore := do
  let tip ← advanceTip store.validationTarget store.tip expectedParent next
  return { store with tip }

def rewind (expectedCurrent parent : ExecutionTip) :
    Except ExecutionStoreError ExecutionStore := do
  let tip ← rewindTip store.tip expectedCurrent parent
  return { store with tip }

def assumeSnapshot (snapshot : AssumedSnapshot) :
    Except ExecutionStoreError ExecutionStore := do
  ensure (snapshot.base.height ≠ 0) .snapshotRequiresFreshChainstate
  ensure (store.tip = ⟨0, store.genesis⟩ ∧ store.Unassumed ∧ store.snapshotOrigin = none ∧
    store.validationTarget = none) .snapshotRequiresFreshChainstate
  return { store with
    tip := snapshot.base
    assumedSnapshotBase := some snapshot.base
    snapshotOrigin := some snapshot.base
    assumedSnapshotRecords := some snapshot.recordsSha256
    assumedSnapshotCount := some snapshot.utxoCount
    assumedSnapshotBytes := some snapshot.recordsBytes
    assumedSnapshotUtxoSet := some snapshot.utxoSetSha256 }

/-- `clear_assumed_snapshot_transaction`: removes the marker and keeps the snapshot's origin. -/
def clearAssumedSnapshot (expected : AssumedSnapshot) :
    Except ExecutionStoreError ExecutionStore := do
  let assumed ← store.decodeAssumedSnapshot
  ensure (assumed = some expected) .assumedSnapshotChanged
  return { store with
    snapshotOrigin := store.snapshotOrigin.or (some expected.base)
    assumedSnapshotBase := none
    assumedSnapshotRecords := none
    assumedSnapshotCount := none
    assumedSnapshotBytes := none
    assumedSnapshotUtxoSet := none }

inductive Operation where
  | bindValidationTarget (requested : ExecutionTip)
  | extendValidationTarget (requested : ExecutionTip)
  | clearCompletedValidationTarget (expected : ExecutionTip)
  | advance (expectedParent : BlockHash) (next : ExecutionTip)
  | rewind (expectedCurrent parent : ExecutionTip)
  | assumeSnapshot (snapshot : AssumedSnapshot)
  | clearAssumedSnapshot (expected : AssumedSnapshot)

def attempt : Operation → Except ExecutionStoreError ExecutionStore
  | .bindValidationTarget requested => store.bindValidationTarget requested
  | .extendValidationTarget requested => store.extendValidationTarget requested
  | .clearCompletedValidationTarget expected => store.clearCompletedValidationTarget expected
  | .advance expectedParent next => store.advance expectedParent next
  | .rewind expectedCurrent parent => store.rewind expectedCurrent parent
  | .assumeSnapshot snapshot => store.assumeSnapshot snapshot
  | .clearAssumedSnapshot expected => store.clearAssumedSnapshot expected

/-- The transaction of an accepted operation is committed, that of a refused one dropped. -/
def perform (operation : Operation) : ExecutionStore :=
  match store.attempt operation with
  | .ok committed => committed
  | .error _ => store

structure Within (tip target : ExecutionTip) : Prop where
  below : tip.height ≤ target.height
  same_hash : tip.height = target.height → tip.hash = target.hash

/-- Whenever a target is bound, the tip is within it and no key of an assumed snapshot is stored. -/
structure Capped (store : ExecutionStore) : Prop where
  within : ∀ target ∈ store.validationTarget, Within store.tip target
  unassumed : ∀ target ∈ store.validationTarget, store.Unassumed

variable {store : ExecutionStore} {requested : ExecutionTip}

theorem Capped.of_unbound (unbound : store.validationTarget = none) : store.Capped where
  within target bound := by
    rw [unbound] at bound
    cases bound
  unassumed target bound := by
    rw [unbound] at bound
    cases bound

variable {tip : ExecutionTip} {operation : Operation}

theorem Capped.move (capped : store.Capped) (within : ∀ target ∈ store.validationTarget, Within tip target) :
    ({ store with tip } : ExecutionStore).Capped := ⟨within, capped.unassumed⟩

theorem decodeAssumedSnapshot_eq_none : store.decodeAssumedSnapshot = .ok none ↔ store.Unassumed := by
  unfold decodeAssumedSnapshot
  split
  · next unassumed => simp [unassumed]
  rename_i assumed
  simp only [assumed, iff_false, bind_eq_ok]
  rintro ⟨_, _, _, _, _, _, _, _, _, _, decoded⟩
  cases decoded

theorem stageValidationTarget_eq_ok {staged : ExecutionStore}
    (accepted : store.stageValidationTarget requested = .ok staged) :
    staged = { store with validationTarget := some requested } := by
  unfold stageValidationTarget at accepted
  split at accepted
  · next stored bound =>
    simp only [bind_eq_ok, ensure_eq_ok, pure_eq_ok] at accepted
    obtain ⟨_, same, rfl⟩ := accepted
    rw [← same, ← bound]
  · cases accepted
    rfl

theorem bindValidationTarget_eq_ok {bound : ExecutionStore}
    (accepted : store.bindValidationTarget requested = .ok bound) :
    store.Unassumed ∧ Within store.tip requested ∧ bound = { store with validationTarget := some requested } := by
  simp only [bindValidationTarget, bind_eq_ok, ensure_eq_ok, pure_eq_ok] at accepted
  obtain ⟨_, _, _, decoded, _, none_assumed, _, below, _, staging, _, matches_tip, rfl⟩ := accepted
  rw [none_assumed, decodeAssumedSnapshot_eq_none] at decoded
  exact ⟨decoded, ⟨below, fun same => not_not.mp fun differs => matches_tip ⟨same, differs⟩⟩,
    stageValidationTarget_eq_ok staging⟩

theorem extendValidationTarget_eq_ok {extended : ExecutionStore}
    (accepted : store.extendValidationTarget requested = .ok extended) :
    ∃ stored, store.validationTarget = some stored ∧ (extended = store ∨
      store.Unassumed ∧ store.tip = stored ∧ stored.height < requested.height ∧
        extended = { store with validationTarget := some requested }) := by
  simp only [extendValidationTarget, bind_eq_ok, ensure_eq_ok, require_eq_ok] at accepted
  obtain ⟨_, _, _, decoded, _, none_assumed, stored, bound, raised⟩ := accepted
  rw [none_assumed, decodeAssumedSnapshot_eq_none] at decoded
  refine ⟨stored, bound, ?_⟩
  split at raised
  · exact .inl (pure_eq_ok.mp raised).symm
  · simp only [bind_eq_ok, ensure_eq_ok, pure_eq_ok] at raised
    obtain ⟨_, forward, _, complete, rfl⟩ := raised
    exact .inr ⟨decoded, complete, forward, rfl⟩

theorem advanceTip_within {target : Option ExecutionTip} {current next : ExecutionTip}
    {expectedParent : BlockHash} (advanced : advanceTip target current expectedParent next = .ok tip) :
    ∀ bound ∈ target, Within tip bound := by
  intro bound isBound
  obtain ⟨⟨-, -, admits⟩, rfl⟩ := advanceTip_eq_ok.mp advanced
  obtain ⟨below, matching⟩ := admits bound isBound
  exact ⟨below, fun same => not_not.mp fun differs => matching ⟨same, differs⟩⟩

theorem Capped.attempt {next : ExecutionStore} (capped : store.Capped)
    (accepted : store.attempt operation = .ok next) : next.Capped := by
  cases operation with
  | bindValidationTarget _ =>
    obtain ⟨unassumed, within, rfl⟩ := bindValidationTarget_eq_ok accepted
    exact ⟨fun target bound => Option.mem_some.mp bound ▸ within, fun _ _ => unassumed⟩
  | extendValidationTarget _ =>
    obtain ⟨_, -, rfl | ⟨unassumed, complete, forward, rfl⟩⟩ := extendValidationTarget_eq_ok accepted
    · exact capped
    refine ⟨fun target bound => ?_, fun _ _ => unassumed⟩
    obtain rfl := Option.mem_some.mp bound
    -- The tip stands on the old target, strictly below the new one.
    rw [complete]
    exact ⟨forward.le, fun same => absurd same forward.ne⟩
  | clearCompletedValidationTarget _ =>
    simp only [attempt, clearCompletedValidationTarget, bind_eq_ok, pure_eq_ok] at accepted
    obtain ⟨_, _, _, _, rfl⟩ := accepted
    exact .of_unbound rfl
  | advance _ _ =>
    simp only [attempt, advance, bind_eq_ok, pure_eq_ok] at accepted
    obtain ⟨_, advanced, rfl⟩ := accepted
    exact capped.move (advanceTip_within advanced)
  | rewind _ parent =>
    simp only [attempt, rewind, rewindTip, bind_eq_ok, ensure_eq_ok, pure_eq_ok, checkedAdd_eq_some] at accepted
    obtain ⟨_, ⟨_, ⟨_, _, height⟩, rfl⟩, rfl⟩ := accepted
    refine capped.move fun target bound => ?_
    have lower : parent.height < target.height :=
      (Nat.lt_of_succ_le height.le).trans_le (capped.within target bound).below
    exact ⟨lower.le, fun same => absurd same lower.ne⟩
  | assumeSnapshot _ =>
    simp only [attempt, assumeSnapshot, bind_eq_ok, ensure_eq_ok, pure_eq_ok] at accepted
    obtain ⟨_, _, _, ⟨_, _, _, unbound⟩, rfl⟩ := accepted
    exact .of_unbound unbound
  | clearAssumedSnapshot _ =>
    simp only [attempt, clearAssumedSnapshot, bind_eq_ok, pure_eq_ok] at accepted
    obtain ⟨_, _, _, _, rfl⟩ := accepted
    exact ⟨capped.within, fun _ _ => ⟨rfl, rfl, rfl, rfl, rfl⟩⟩

theorem perform_of_refused {error : ExecutionStoreError} (refused : store.attempt operation = .error error) :
    store.perform operation = store := by
  rw [perform, refused]

theorem Capped.perform (capped : store.Capped) (operation : Operation) : (store.perform operation).Capped := by
  cases result : store.attempt operation with
  | ok _ =>
    rw [ExecutionStore.perform, result]
    exact capped.attempt result
  | error _ =>
    rw [perform_of_refused result]
    exact capped

/-- The tip stays within a bound target, and a refused operation changes nothing. -/
theorem validation_ceiling (genesis : BlockHash) (operations : List Operation) :
    let store := operations.foldl perform (fresh genesis)
    store.Capped ∧ (∀ operation error, store.attempt operation = .error error → store.perform operation = store) ∧
      ∀ requested extended, store.extendValidationTarget requested = .ok extended →
        ∃ before ∈ store.validationTarget, ∃ after ∈ extended.validationTarget, before.height ≤ after.height := by
  refine ⟨?_, fun _ _ => perform_of_refused, fun requested extended accepted => ?_⟩
  · have start : (fresh genesis).Capped := .of_unbound rfl
    generalize fresh genesis = store at start
    induction operations generalizing store with
    | nil => exact start
    | cons operation _ ih => exact ih (store.perform operation) (start.perform operation)
  · obtain ⟨stored, bound, rfl | ⟨-, -, forward, rfl⟩⟩ := extendValidationTarget_eq_ok accepted
    · exact ⟨stored, bound, stored, bound, le_rfl⟩
    · exact ⟨stored, bound, requested, rfl, forward.le⟩

end ExecutionStore

end Rbtc.Chainstate
