import Rbtc.WriteBack.Transparency

/-! Behind a layer whose commits all land, valid batches are read back as if committed singly. Undo reads
under their three locks, which can look between the steps of a flush. -/

namespace Rbtc.WriteBack

open Foundation Bitcoin Chainstate WriteBackChainstate NetChange

namespace WriteBackChainstate

variable {σ : Type} {store : ExecutionChainStore σ} {layer : WriteBackChainstate σ}
  {ledger : Ledger}

/-- Each buffer can be committed onto what lies below it; together they show the ledger. -/
structure Mirrors (store : ExecutionChainStore σ) (layer : WriteBackChainstate σ)
    (ledger : Ledger) : Prop where
  consistent : Consistent store layer
  healthy : ¬ (layer.CommitFailed ∨ layer.failed ≠ none)
  flight_fits : ∀ flight, layer.inFlight = some flight → layer.Outstanding flight.handle →
    flight.state.change.Fits (store.get layer.inner) ∧
      (store.executionTip layer.inner).Contiguous flight.state.transitions
  pending_fits : layer.pending.change.Fits (layer.baseCoins store)
  pending_contiguous : (layer.baseTip store).Contiguous layer.pending.transitions
  coins : layer.pending.change.onto (layer.baseCoins store) = ledger.coins
  tip : layer.currentTip store = ledger.tip

theorem mirrors_new (inner : σ) (limits : WriteBackLimits) :
    Mirrors store (new inner limits) (ledgerOf store inner) where
  consistent := consistent_new inner limits
  healthy := by
    rintro (⟨_, _, found⟩ | marked)
    · cases found
    · exact marked rfl
  flight_fits _ inSlot := by cases inSlot
  pending_fits := fits_empty _
  pending_contiguous := trivial
  coins := onto_empty _
  tip := rfl

theorem currentTip_eq (consistent : Consistent store layer) : layer.currentTip store =
      (layer.baseTip store).after layer.pending.transitions := by
  rw [show layer.currentTip store = _ from executionTip_eq store layer, consistent.pending_tip]
  cases last : layer.pending.transitions.getLast?.map ConnectTransition.next with
  | none =>
    rw [Option.map_eq_none_iff, List.getLast?_eq_none_iff] at last
    rw [last]
    rfl
  | some _ => exact (after_eq_of_getLast last _).symm

section
variable (mirrors : Mirrors store layer ledger)
include mirrors

theorem Mirrors.get_eq (key : OutPointKey) : layer.get store key = ledger.coins key := by
  rw [get_eq_onto, mirrors.coins]

theorem Mirrors.of_sameBelow {after : WriteBackChainstate σ} (consistent : Consistent store after)
    (same : SameBelow store layer after) (healthy : ¬ (after.CommitFailed ∨ after.failed ≠ none))
    (flight_fits : ∀ flight, after.inFlight = some flight → after.Outstanding flight.handle →
      flight.state.change.Fits (store.get after.inner) ∧
        (store.executionTip after.inner).Contiguous flight.state.transitions) : Mirrors store after ledger where
  consistent := consistent
  healthy := healthy
  flight_fits := flight_fits
  pending_fits := by rw [same.pending, same.coins]; exact mirrors.pending_fits
  pending_contiguous := by rw [same.pending, same.tip]; exact mirrors.pending_contiguous
  coins := by rw [same.pending, same.coins]; exact mirrors.coins
  tip := same.transparent.tip.trans mirrors.tip

theorem Mirrors.settle {flight : InFlight} (inSlot : layer.inFlight = some flight) {outcome : FlushResult}
    (returned : layer.threads[flight.handle]? = some (.returned outcome)) : (∃ flush, outcome = .ok flush) ∧
      Mirrors store (({ layer with inFlight := none }).settle flight outcome).1 ledger := by
  cases outcome with
  | error error => exact absurd (.inl ⟨_, error, returned⟩) mirrors.healthy
  | ok flush =>
    obtain ⟨consistent, same⟩ := settle_sameBelow mirrors.consistent inSlot returned
    exact ⟨⟨flush, rfl⟩, mirrors.of_sameBelow consistent same mirrors.healthy nofun⟩

theorem Mirrors.publish (slotEmpty : layer.inFlight = none) (spawned : Bool) :
    (spawned = true → ∃ started, (layer.publish spawned).2 = .ok started) ∧
      Mirrors store (layer.publish spawned).1 ledger := by
  obtain ⟨consistent, transparent⟩ := publish_transparent mirrors.consistent slotEmpty spawned
  have baseCoins : layer.baseCoins store = store.get layer.inner := by
    simp [baseCoins, flightChange, slotEmpty]
  have baseTip : layer.baseTip store = store.executionTip layer.inner := by
    simp [baseTip, slotEmpty]
  have step := publish_step layer spawned
  generalize layer.publish spawned = result at step consistent transparent
  cases step with
  | empty => exact ⟨fun _ => ⟨false, rfl⟩, mirrors⟩
  | unspawned _ cause =>
    refine ⟨fun isSpawned => ?_, mirrors⟩
    rcases cause with unspawned | ⟨nonempty, noTip⟩
    · cases isSpawned.symm.trans unspawned
    · rw [mirrors.consistent.pending_tip, Option.map_eq_none_iff, List.getLast?_eq_none_iff] at noTip
      exact absurd noTip nonempty
  | started tip _ =>
    refine ⟨fun _ => ⟨true, rfl⟩, consistent, ?_, fun flight inSlot _ => ?_,
      fits_empty _, trivial, ?_, transparent.tip.trans mirrors.tip⟩
    · rintro (failed | marked)
      · obtain ⟨_, _, inSlot, found, failing⟩ := consistent.failure (.inl failed)
        cases inSlot
        rw [List.getElem?_concat_length] at found
        cases found
        cases failing
      · exact mirrors.healthy (.inr marked)
    · cases inSlot
      exact ⟨baseCoins ▸ mirrors.pending_fits, baseTip ▸ mirrors.pending_contiguous⟩
    · have shown := funext transparent.get
      rw [funext (get_eq_onto store _), funext (get_eq_onto store layer), mirrors.coins] at shown
      exact shown

theorem Mirrors.takeLastFlush : Mirrors store layer.takeLastFlush.1 ledger := by
  have reported : ∀ harvested : WriteBackChainstate σ, Mirrors store harvested ledger →
      Mirrors store harvested.report.1 ledger := by
    intro harvested mirrors
    unfold report
    split
    · exact mirrors
    rename_i oldest rest isFinished
    obtain ⟨consistent, same⟩ := report_sameBelow mirrors.consistent
    simp only [report, isFinished] at consistent same
    exact mirrors.of_sameBelow consistent same mirrors.healthy mirrors.flight_fits
  refine reported _ ?_
  unfold harvest
  split
  · next flight inSlot =>
    split
    · next finished =>
      obtain ⟨_, returned⟩ := isFinished_eq_true finished
      rw [join_of_returned returned]
      exact (mirrors.settle inSlot returned).2
    · exact mirrors
  · exact mirrors

end

section
variable (atomic : AtomicStore store) (mirrors : Mirrors store layer ledger)
include atomic mirrors

theorem Mirrors.runThread (handle : Nat) : Mirrors store (layer.runThread store handle none) ledger := by
  obtain ⟨consistent, same⟩ := (runThread_step store layer handle none).sameBelow atomic mirrors.consistent
  cases running : layer.threads[handle]? with
  | none =>
    have idle : layer.runThread store handle none = layer := by
      simp [WriteBackChainstate.runThread, running]
    rw [idle]
    exact mirrors
  | some thread =>
    cases thread with
    | returned _ =>
      have idle : layer.runThread store handle none = layer := by
        simp [WriteBackChainstate.runThread, running]
      rw [idle]
      exact mirrors
    | refusing =>
      exact absurd (.inr (mirrors.consistent.refusing handle running)) mirrors.healthy
    | committing state _ _ =>
      obtain ⟨flight, inSlot, rfl⟩ := mirrors.consistent.alone handle ⟨_, _, _, running⟩
      obtain ⟨_, found, isFlight⟩ := mirrors.consistent.flight flight inSlot
      obtain rfl := Option.mem_unique running found
      cases isFlight
      obtain ⟨fits, contiguous⟩ := mirrors.flight_fits flight inSlot ⟨_, _, _, running⟩
      obtain ⟨inner, committed⟩ := atomic.accepts layer.inner flight.state.transitions
        flight.state.change (ne_nil_of_getLast (mirrors.consistent.flight_tip flight inSlot))
        contiguous fits
      obtain ⟨flush, landed⟩ := runThread_lands running committed
      have threads : (layer.runThread store flight.handle none).threads =
          layer.threads.set flight.handle (.returned (.ok flush)) := by rw [landed]
      have unmarked : (layer.runThread store flight.handle none).failed =
          layer.failed := by rw [landed]
      refine mirrors.of_sameBelow consistent same (fun failure => mirrors.healthy ?_)
        fun other inSlot' outstanding => ?_
      · rw [unmarked] at failure
        refine failure.imp_left ?_
        rintro ⟨other, error, found'⟩
        rw [threads, threads_set layer running] at found'
        split at found'
        · cases found'
        · exact ⟨other, error, found'⟩
      · rw [runThread_slot, inSlot] at inSlot'
        cases inSlot'
        exact absurd rfl (outstanding_of_set running threads outstanding).1

theorem Mirrors.waitInFlightLocked : (∃ record, (layer.waitInFlightLocked store none).2 = .ok record) ∧
      Mirrors store (layer.waitInFlightLocked store none).1 ledger := by
  unfold WriteBackChainstate.waitInFlightLocked
  cases inSlot : layer.inFlight with
  | none => exact ⟨⟨none, rfl⟩, mirrors⟩
  | some flight =>
    obtain ⟨_, found, -⟩ := mirrors.consistent.flight flight inSlot
    obtain ⟨outcome, returned⟩ := runThread_returns store none found
    have slot := (runThread_slot store layer flight.handle none).trans inSlot
    obtain ⟨⟨flush, isOk⟩, settled⟩ := (mirrors.runThread atomic flight.handle).settle slot returned
    simp only [runThread_inFlight]
    have joined : ({ layer.runThread store flight.handle none with
        inFlight := none }).join flight.handle = outcome :=
      join_of_returned returned
    rw [joined]
    exact ⟨⟨some flush, by rw [isOk]; rfl⟩, settled⟩

theorem Mirrors.startFlush (spawned : Bool) :
    (spawned = true → ∃ started, (layer.startFlush store spawned none).2 = .ok started) ∧
      Mirrors store (layer.startFlush store spawned none).1 ledger := by
  obtain ⟨⟨record, isOk⟩, waited⟩ := mirrors.waitInFlightLocked atomic
  have emptied := (waitInFlightLocked_spec atomic mirrors.consistent none).2.2.1 record isOk
  have checked : layer.checkFailed = .ok () := ensure_of (not_not.mp (not_or.mp mirrors.healthy).2)
  unfold WriteBackChainstate.startFlush
  rw [checked]
  generalize layer.waitInFlightLocked store none = result at isOk waited emptied
  obtain ⟨_, _⟩ := result
  cases isOk
  exact waited.publish emptied spawned

end

variable {transitions : Transitions}

theorem Mirrors.bufferSection (mirrors : Mirrors store layer ledger)
    (accepts : ledger.AcceptsAll transitions) (once : layer.TouchesOnce transitions) :
    (∃ flushes, (layer.bufferSection store transitions).2 = .ok flushes) ∧
      Mirrors store (layer.bufferSection store transitions).1 (ledger.connectAll transitions) := by
  obtain ⟨staged, completed, tip, fits, shown⟩ :=
    stageBatch_spec mirrors.pending_fits mirrors.coins mirrors.tip accepts once
  have consistent := (bufferSection_spec mirrors.consistent transitions).1
  have checked : layer.checkFailed = .ok () := ensure_of (not_not.mp (not_or.mp mirrors.healthy).2)
  have step := bufferSection_step store layer transitions
  generalize layer.bufferSection store transitions = result at step consistent
  cases step with
  | ignored isEmpty =>
    subst isEmpty
    exact ⟨⟨false, rfl⟩, mirrors⟩
  | refused _ _ stopped =>
    rw [checked, completed] at stopped
    cases stopped
  | merged _ healthy _ completed' flushes =>
    cases completed.symm.trans completed'
    have contiguous : (layer.baseTip store).Contiguous (merge layer.pending transitions staged).transitions := by
      refine ExecutionTip.contiguous_append.mpr ⟨mirrors.pending_contiguous, ?_⟩
      rw [← currentTip_eq mirrors.consistent, mirrors.tip]
      exact ExecutionTip.contiguous_withoutCreated.mpr accepts.contiguous
    exact ⟨⟨flushes, rfl⟩, consistent, mirrors.healthy, mirrors.flight_fits, fits, contiguous, shown, tip⟩

theorem Mirrors.buffer (atomic : AtomicStore store) (mirrors : Mirrors store layer ledger)
    (accepts : ledger.AcceptsAll transitions) (once : layer.TouchesOnce transitions) :
    (layer.buffer store transitions true none).2 = .ok () ∧
      Mirrors store (layer.buffer store transitions true none).1 (ledger.connectAll transitions) := by
  obtain ⟨⟨flushes, accepted⟩, buffered⟩ := mirrors.bufferSection accepts once
  unfold WriteBackChainstate.buffer
  generalize layer.bufferSection store transitions = result at accepted buffered
  obtain ⟨_, _⟩ := result
  cases accepted
  cases flushes with
  | false => exact ⟨rfl, buffered⟩
  | true =>
    obtain ⟨spawns, flushed⟩ := buffered.startFlush atomic true
    obtain ⟨_, isOk⟩ := spawns rfl
    exact ⟨congrArg (Except.map fun _ => ()) isOk, flushed⟩

end WriteBackChainstate

/-- A step other than a batch in which no engine write fails. -/
def Step.Faultless : Step → Prop
  | .startFlush _ fault | .wait fault | .thread _ fault => fault = none
  | .takeLastFlush => True
  | .buffer _ => False

section
variable {σ : Type} {store : ExecutionChainStore σ} {inner : σ} {limits : WriteBackLimits}

variable (store inner limits) in
/-- The layer and a bare store fed the same valid batches, each touching a key at most once per buffer. -/
inductive Follows : WriteBackChainstate σ → σ → Prop
  | new : Follows (.new inner limits) inner
  | background {layer bare} (step : Step) : Follows layer bare → step.Faultless →
      Follows (layer.perform store step).1 bare
  | batch {layer bare next transitions} : Follows layer bare →
      (ledgerOf store bare).AcceptsAll transitions → layer.TouchesOnce transitions →
      foldOutcome store.commitConnect bare transitions = .ok next →
      Follows (layer.buffer store transitions true none).1 next

variable {layer : WriteBackChainstate σ} {bare : σ}

theorem Follows.mirrors (atomic : AtomicStore store) (follows : Follows store inner limits layer bare) :
    layer.Mirrors store (ledgerOf store bare) := by
  induction follows with
  | new => exact mirrors_new inner limits
  | background step _ faultless ih =>
    cases step with
    | startFlush spawned _ =>
      cases faultless
      exact (ih.startFlush atomic spawned).2
    | wait _ =>
      cases faultless
      exact (ih.waitInFlightLocked atomic).2
    | takeLastFlush => exact ih.takeLastFlush
    | thread handle _ =>
      cases faultless
      exact ih.runThread atomic handle
    | buffer _ => cases faultless
  | batch _ accepts once committed ih =>
    obtain ⟨_, committed', ledger⟩ := atomic.connectsAll accepts
    cases committed.symm.trans committed'
    rw [ledger]
    exact (ih.buffer atomic accepts once).2

/-- The layer refines the bare store: its reads are the bare store's, and both accept the next valid
batch. -/
theorem writeBack_refines (atomic : AtomicStore store) (follows : Follows store inner limits layer bare) :
    (∀ key, layer.get store key = store.get bare key) ∧
    (∀ keys, layer.getMany store keys = .ok (store.getMany bare keys)) ∧
    layer.executionTip store = store.executionTip bare ∧
    ∀ transitions, (ledgerOf store bare).AcceptsAll transitions → layer.TouchesOnce transitions →
      (layer.buffer store transitions true none).2 = .ok () ∧
      ∃ next, foldOutcome store.commitConnect bare transitions = .ok next := by
  have mirrors := follows.mirrors atomic
  refine ⟨mirrors.get_eq, fun keys => ?_, mirrors.tip, fun transitions accepts once => ?_⟩
  · rw [getMany_eq atomic, atomic.getMany_eq]
    simp only [mirrors.get_eq]
    rfl
  · obtain ⟨next, committed, -⟩ := atomic.connectsAll accepts
    exact ⟨(mirrors.buffer atomic accepts once).1, next, committed⟩

end

open OverlayEngine

def sampleMove : ConnectTransition :=
  sampleTransition 1 [sampleKey 1] [(sampleKey 2, sampleCoin 4)]

theorem accepts_sampleMove : (ledgerOf store sample).AcceptsAll [sampleMove] := by
  refine ⟨⟨by decide, by decide, by decide, ?_, ?_⟩, trivial⟩
  · decide
  intro key created _
  have member := fun absent => created (Table.lookup_ofList_eq_none.mpr absent)
  cases List.mem_singleton.mp (not_not.mp member)
  decide

/-- The layer and the bare engine agree while the block is still being committed. -/
theorem writeBack_refines_while_committing : (((new sample sampleLimits).buffer store [sampleMove] true none).1.perform
      store (.startFlush true none)).1.get store (sampleKey 2) = some (sampleCoin 4) := by
  obtain ⟨_, committed, ledger⟩ := atomicStore.connectsAll accepts_sampleMove
  have once : (new sample sampleLimits).TouchesOnce [sampleMove] := ⟨by decide, by decide, by decide, by decide⟩
  have follows := (Follows.new.batch accepts_sampleMove once committed).background (.startFlush true none) rfl
  exact ((writeBack_refines atomicStore follows).1 (sampleKey 2)).trans
    (congrFun (congrArg Ledger.coins ledger) (sampleKey 2))

def sampleRecreation : Transitions :=
  [sampleTransition 1 [] [(sampleKey 2, sampleCoin 4)], sampleTransition 2 [sampleKey 2] [],
    sampleTransition 3 [] [(sampleKey 2, sampleCoin 4)]]

/-- The layer loses a coin created again in a batch; the bare store commits the same batches. -/
theorem recreated_coin_lost :
    let bare := foldOutcome store.commitConnect sample sampleRecreation
    let layer := (new sample sampleLimits).buffer store sampleRecreation true none
    let respent := sampleRecreation ++ [sampleTransition 4 [sampleKey 2] []]
    bare.toOption.map (store.get · (sampleKey 2)) = some (some (sampleCoin 4)) ∧
    layer.2 = .ok () ∧ layer.1.get store (sampleKey 2) = none ∧
    (foldOutcome store.commitConnect sample respent).isOk = true ∧
    ((new sample sampleLimits).buffer store respent true none).2.isOk = false := by
  decide

open Option

inductive Purpose where
  | startFlush
  | wait
  | takeLastFlush

inductive Writer where
  | entered (purpose : Purpose)
  | joining (purpose : Purpose) (flight : InFlight)
  | settled (purpose : Purpose)

/-- After an error `start_flush` and the waits return, which releases the lock. -/
def Writer.afterSettling : Purpose → FlushResult → Option Writer
  | .takeLastFlush, _ => some (.settled .takeLastFlush)
  | purpose, .ok _ => some (.settled purpose)
  | _, .error _ => none

structure Shared (σ : Type) where
  chainstate : WriteBackChainstate σ
  writer : Option Writer

namespace Shared

variable {σ : Type} {store : ExecutionChainStore σ} (shared : Shared σ)

def whole : WriteBackChainstate σ :=
  match shared.writer with
  | some (.joining _ flight) => { shared.chainstate with inFlight := some flight }
  | _ => shared.chainstate

inductive Advance (store : ExecutionChainStore σ) : Shared σ → Shared σ → Prop
  /-- The pending write lock is taken; `start_flush` goes on only when no failure is recorded. -/
  | lock (layer : WriteBackChainstate σ) (purpose : Purpose)
      (checked : purpose = .startFlush → layer.failed = none) :
      Advance store ⟨layer, none⟩ ⟨layer, some (.entered purpose)⟩
  /-- `wait_in_flight_locked`, or `take_last_flush` with a finished thread, empties the slot. -/
  | take (layer : WriteBackChainstate σ) (purpose : Purpose) (flight : InFlight)
      (inSlot : layer.inFlight = some flight)
      (finished : purpose = .takeLastFlush → layer.isFinished flight.handle = true) :
      Advance store ⟨layer, some (.entered purpose)⟩
        ⟨{ layer with inFlight := none }, some (.joining purpose flight)⟩
  /-- There is nothing to settle. -/
  | pass (layer : WriteBackChainstate σ) (purpose : Purpose) (nothing : match layer.inFlight with
        | none => True
        | some flight => purpose = .takeLastFlush ∧ layer.isFinished flight.handle = false) :
      Advance store ⟨layer, some (.entered purpose)⟩ ⟨layer, some (.settled purpose)⟩
  /-- The joined thread has returned. -/
  | settle (layer : WriteBackChainstate σ) (purpose : Purpose) (flight : InFlight) (outcome : FlushResult)
      (returned : layer.threads[flight.handle]? = some (.returned outcome)) :
      Advance store ⟨layer, some (.joining purpose flight)⟩
        ⟨(layer.settle flight outcome).1, Writer.afterSettling purpose outcome⟩
  /-- `start_flush` hands the accepting buffer to a new thread and returns. -/
  | publish (layer : WriteBackChainstate σ) (spawned : Bool) :
      Advance store ⟨layer, some (.settled .startFlush)⟩ ⟨(layer.publish spawned).1, none⟩
  | release (layer : WriteBackChainstate σ) :
      Advance store ⟨layer, some (.settled .wait)⟩ ⟨layer, none⟩
  | report (layer : WriteBackChainstate σ) :
      Advance store ⟨layer, some (.settled .takeLastFlush)⟩ ⟨layer.report.1, none⟩
  /-- A background thread returns, whoever holds the lock. -/
  | thread (layer : WriteBackChainstate σ) (writer : Option Writer) (handle : Nat)
      (fault : Option ChainStoreError) : Advance store ⟨layer, writer⟩ ⟨layer.runThread store handle fault, writer⟩

abbrev Reaches (store : ExecutionChainStore σ) : Shared σ → Shared σ → Prop :=
  Relation.ReflTransGen (Advance store)

/-- The slot is empty once a flight has been taken from it and until the next one is published. -/
def SlotKept : Prop :=
  match shared.writer with
  | some (.joining _ _) | some (.settled .startFlush) => shared.chainstate.inFlight = none
  | _ => True

theorem Advance.transparent (atomic : AtomicStore store) {before after : Shared σ}
    (advance : Advance store before after) (consistent : before.whole.Consistent store)
    (kept : before.SlotKept) : after.whole.Consistent store ∧ after.SlotKept ∧
      WriteBackChainstate.Transparent store before.whole after.whole := by
  cases advance with
  | lock layer purpose => exact ⟨consistent, trivial, .refl _⟩
  | take layer purpose flight inSlot _ =>
    have same : whole ⟨{ layer with inFlight := none }, some (.joining purpose flight)⟩ =
        layer := by
      simp [whole, ← inSlot]
    rw [same]
    exact ⟨consistent, rfl, .refl _⟩
  | pass layer purpose nothing =>
    refine ⟨consistent, ?_, .refl _⟩
    cases purpose with
    | startFlush =>
      show layer.inFlight = none
      cases inSlot : layer.inFlight with
      | none => rfl
      | some flight =>
        rw [inSlot] at nothing
        cases nothing.1
    | wait | takeLastFlush => trivial
  | settle layer purpose flight outcome returned =>
    have emptied : ({ layer with inFlight := none }) = layer := by
      simp [← (show layer.inFlight = none from kept)]
    obtain ⟨settled, same⟩ := settle_sameBelow consistent rfl returned
    have transparent := same.transparent
    simp only [whole, emptied] at settled transparent
    cases outcome with
    | ok flush =>
      have slot : (layer.settle flight (.ok flush)).1.inFlight = none := kept
      cases purpose with
      | startFlush => exact ⟨settled, slot, transparent⟩
      | wait | takeLastFlush => exact ⟨settled, trivial, transparent⟩
    | error _ =>
      cases purpose with
      | startFlush | wait | takeLastFlush => exact ⟨settled, trivial, transparent⟩
  | publish layer spawned =>
    have slotEmpty : layer.inFlight = none := kept
    obtain ⟨published, transparent⟩ := publish_transparent consistent slotEmpty spawned
    exact ⟨published, trivial, transparent⟩
  | release layer => exact ⟨consistent, trivial, .refl _⟩
  | report layer =>
    obtain ⟨reported, same⟩ := report_sameBelow consistent
    exact ⟨reported, trivial, same.transparent⟩
  | thread layer writer handle fault =>
    have commutes : whole ⟨layer.runThread store handle fault, writer⟩ =
        (whole ⟨layer, writer⟩).runThread store handle fault := by
      cases writer with
      | none => rfl
      | some writer =>
        cases writer with
        | entered | settled => rfl
        | joining _ _ => exact (runThread_inFlight _).symm
    obtain ⟨next, same⟩ := (runThread_step store (whole ⟨layer, writer⟩) handle fault).sameBelow atomic consistent
    refine ⟨by rw [commutes]; exact next, ?_, by rw [commutes]; exact same.transparent⟩
    unfold SlotKept at kept ⊢
    rw [runThread_slot]
    exact kept

theorem Reaches.transparent (atomic : AtomicStore store) {before after : Shared σ}
    (reaches : Reaches store before after) (consistent : before.whole.Consistent store)
    (kept : before.SlotKept) : after.whole.Consistent store ∧ after.SlotKept ∧
      WriteBackChainstate.Transparent store before.whole after.whole := by
  induction reaches with
  | refl => exact ⟨consistent, kept, .refl _⟩
  | tail _ advance ih =>
    obtain ⟨middleConsistent, middleKept, transparent⟩ := ih
    obtain ⟨next, nextKept, step⟩ := advance.transparent atomic middleConsistent middleKept
    exact ⟨next, nextKept, transparent.trans step⟩

/-- The block's record is in no accepting buffer, and a flight that carries it has landed. -/
structure Durable (hash : BlockHash) (shared : Shared σ) : Prop where
  pending : undoIn shared.chainstate.pending.transitions hash = none
  flight : ∀ flight, shared.whole.inFlight = some flight → undoIn flight.state.transitions hash ≠ none →
    ∃ flush, shared.chainstate.threads[flight.handle]? = some (.returned (.ok flush))

theorem whole_pending : shared.whole.pending = shared.chainstate.pending := by
  unfold whole
  split <;> rfl

theorem whole_threads : shared.whole.threads = shared.chainstate.threads := by
  unfold whole
  split <;> rfl

theorem whole_inner : shared.whole.inner = shared.chainstate.inner := by
  unfold whole
  split <;> rfl

variable {hash : BlockHash} {shared before after : Shared σ}

theorem whole_inFlight (kept : shared.SlotKept) {flight : InFlight}
    (inSlot : shared.chainstate.inFlight = some flight) : shared.whole.inFlight = some flight := by
  unfold whole
  split
  · next joining =>
    simp only [SlotKept, joining] at kept
    cases kept.symm.trans inSlot
  · exact inSlot

theorem inFlight_of_whole {flight : InFlight} (inWhole : shared.whole.inFlight = some flight) :
    (∃ purpose, shared.writer = some (.joining purpose flight)) ∨ shared.chainstate.inFlight = some flight := by
  unfold whole at inWhole
  split at inWhole
  · next purpose held joining =>
    cases inWhole
    exact .inl ⟨purpose, joining⟩
  · exact .inr inWhole

theorem Durable.blockUndo_eq (durable : shared.Durable hash) (consistent : shared.whole.Consistent store) :
    shared.whole.blockUndo store hash = store.blockUndo shared.chainstate.inner hash := by
  rw [WriteBackChainstate.blockUndo_eq, whole_pending, durable.pending, none_or, whole_inner]
  cases inSlot : shared.whole.inFlight with
  | none => rfl
  | some flight =>
    rw [bind_some]
    cases recorded : undoIn flight.state.transitions hash with
    | none => rfl
    | some undos =>
      obtain ⟨_, landed⟩ := durable.flight flight inSlot (by simp [recorded])
      obtain ⟨_, found, isFlight⟩ := consistent.flight flight inSlot
      rw [whole_threads, landed] at found
      cases found
      cases isFlight with
      | landed _ held _ =>
        have engine := held.undos hash undos recorded
        rw [whole_inner] at engine
        rw [engine, some_or]

theorem Advance.pending (advance : Advance store before after)
    (absent : undoIn before.chainstate.pending.transitions hash = none) :
    undoIn after.chainstate.pending.transitions hash = none := by
  cases advance with
  | lock | take | pass | release => exact absent
  | settle layer _ _ outcome => cases outcome <;> exact absent
  | publish layer spawned =>
    have step := publish_step layer spawned
    generalize layer.publish spawned = result at step
    cases step with
    | empty | unspawned => exact absent
    | started => rfl
  | report layer =>
    unfold WriteBackChainstate.report
    split <;> exact absent
  | thread layer _ handle fault =>
    have step := runThread_step store layer handle fault
    generalize layer.runThread store handle fault = next at step
    cases step <;> exact absent

theorem Advance.durable (advance : Advance store before after) (kept : before.SlotKept)
    (durable : before.Durable hash) : after.Durable hash := by
  refine ⟨advance.pending durable.pending, ?_⟩
  cases advance with
  | lock | release => exact durable.flight
  | take layer purpose flight inSlot =>
    intro other inSlot'
    cases inSlot'
    exact durable.flight flight inSlot
  | pass => exact durable.flight
  | settle layer purpose flight outcome returned =>
    have emptied : layer.inFlight = none := kept
    intro other inSlot recorded
    cases outcome with
    | ok flush =>
      have slot : layer.inFlight = some other := by cases purpose <;> exact inSlot
      cases emptied.symm.trans slot
    | error _ =>
      have same : flight.state = other.state := by
        have reinstalled : some { state := flight.state, handle := layer.threads.length } =
            some other := by cases purpose <;> exact inSlot
        cases reinstalled
        rfl
      obtain ⟨flush, landed⟩ := durable.flight flight rfl (same ▸ recorded)
      cases returned.symm.trans landed
  | publish layer spawned =>
    have slotEmpty : layer.inFlight = none := kept
    have absent := durable.pending
    have step := publish_step layer spawned
    generalize layer.publish spawned = result at step
    intro other inSlot recorded
    cases step with
    | empty | unspawned => cases slotEmpty.symm.trans inSlot
    | started =>
      cases inSlot
      exact absurd absent recorded
  | report layer =>
    unfold WriteBackChainstate.report
    split <;> exact durable.flight
  | thread layer writer handle fault =>
    have stays : ∀ (other : Nat) (outcome : FlushResult), layer.threads[other]? = some (.returned outcome) →
        (layer.runThread store handle fault).threads[other]? = some (.returned outcome) :=
      fun other outcome => runThread_keeps
    intro flight inSlot recorded
    have inSlot' : (whole ⟨layer, writer⟩).inFlight = some flight := by
      rw [← inSlot]
      unfold whole
      dsimp only
      split
      · rfl
      · exact (runThread_slot store layer handle fault).symm
    obtain ⟨flush, landed⟩ := durable.flight flight inSlot' recorded
    exact ⟨flush, stays _ _ landed⟩

theorem Reaches.pending (reaches : Reaches store before after)
    (absent : undoIn before.chainstate.pending.transitions hash = none) :
    undoIn after.chainstate.pending.transitions hash = none := by
  induction reaches with
  | refl => exact absent
  | tail _ advance ih => exact advance.pending ih

theorem Reaches.durable (atomic : AtomicStore store) {before after : Shared σ} {hash : BlockHash}
    (reaches : Reaches store before after) (consistent : before.whole.Consistent store)
    (kept : before.SlotKept) (durable : before.Durable hash) : after.Durable hash := by
  induction reaches with
  | refl => exact durable
  | tail earlier advance ih =>
    exact advance.durable (Reaches.transparent atomic earlier consistent kept).2.1 ih

/-- While the flight that carries a block is held by a caller that joins its commit, the commit has
landed. -/
def ReadableAt (hash : BlockHash) : Prop :=
  ∀ purpose flight, shared.writer = some (.joining purpose flight) → undoIn flight.state.transitions hash ≠ none →
    ∃ flush, shared.chainstate.threads[flight.handle]? = some (.returned (.ok flush))

end Shared

open Shared

/-- Flushing is transparent to undo reads unless a reader looks into the slot while the flight of
its block is held and not landed. -/
theorem blockUndo_transparent {σ : Type} (store : ExecutionChainStore σ)
    (atomic : AtomicStore store) (inner : σ) (limits : WriteBackLimits) (before : List Step)
    (hash : BlockHash) (atPending atInFlight atEngine : Shared σ)
    (first : Reaches store ⟨(new inner limits).run store before, none⟩ atPending)
    (unlocked : atPending.writer = none) (second : Reaches store atPending atInFlight)
    (third : Reaches store atInFlight atEngine) (readable : atInFlight.ReadableAt hash) :
    blockUndoAt store atPending.chainstate atInFlight.chainstate atEngine.chainstate hash =
      ((new inner limits).run store before).blockUndo store hash := by
  obtain ⟨startConsistent, -, -⟩ := run_spec atomic (consistent_new inner limits) before
  obtain ⟨consistent₁, kept₁, transparent₁⟩ := first.transparent atomic startConsistent trivial
  obtain ⟨consistent₂, kept₂, transparent₂⟩ := second.transparent atomic consistent₁ kept₁
  obtain ⟨consistent₃, _, transparent₃⟩ := third.transparent atomic consistent₂ kept₂
  have start : ((new inner limits).run store before).blockUndo store hash =
      atPending.whole.blockUndo store hash := (transparent₁.undo hash).symm
  have wholeFirst : atPending.whole = atPending.chainstate := by simp [whole, unlocked]
  rw [start, blockUndoAt]
  cases pending : undoIn atPending.chainstate.pending.transitions hash with
  | some undos => rw [blockUndo_eq, wholeFirst, pending, some_or, some_or]
  | none =>
    have absent := second.pending pending
    cases inSlot : atInFlight.chainstate.inFlightState.bind fun state =>
        undoIn state.transitions hash with
    | some undos =>
      obtain ⟨flight, isSlot, recorded⟩ : ∃ flight, atInFlight.chainstate.inFlight = some flight ∧
            undoIn flight.state.transitions hash = some undos := by
        simpa [inFlightState, bind_eq_some_iff] using inSlot
      rw [← transparent₂.undo hash, blockUndo_eq, whole_pending, absent, none_or,
        whole_inFlight kept₂ isSlot, bind_some, recorded, some_or]
    | none =>
      -- From here on the engine alone answers, whether the commit landed before or after.
      have durable : atInFlight.Durable hash := by
        refine ⟨absent, fun flight inWhole recorded => ?_⟩
        rcases inFlight_of_whole inWhole with ⟨purpose, joining⟩ | isSlot
        · exact readable purpose flight joining recorded
        · rw [inFlightState, isSlot] at inSlot
          exact absurd inSlot recorded
      have durable₃ := third.durable atomic consistent₂ kept₂ durable
      rw [← (transparent₂.trans transparent₃).undo hash]
      exact (durable₃.blockUndo_eq consistent₃).symm

def sampleFlush : List Step :=
  [.buffer [sampleTransition 1 [] [(sampleKey 2, sampleCoin 6)]], .startFlush true none]

/-- A reader that finds the slot empty because the joined commit has landed is answered by the
engine. -/
theorem blockUndo_found_after_landing :
    let start := (new sample sampleLimits).run store sampleFlush
    let landed := start.runThread store 0 none
    ∃ flight, start.inFlight = some flight ∧
      blockUndoAt store start { landed with inFlight := none }
        { landed with inFlight := none } ⟨1⟩ = some [⟨[], [sampleKey 2]⟩] := by
  intro start landed
  obtain ⟨flight, inSlot⟩ : ∃ flight, start.inFlight = some flight := isSome_iff_exists.mp (by decide)
  have atZero : flight.handle = 0 := mem_unique (congrArg (Option.map InFlight.handle) inSlot) (by decide)
  have joining : Reaches store ⟨start, none⟩
      ⟨{ landed with inFlight := none }, some (.joining .wait flight)⟩ := by
    refine .tail (.tail (.single (.thread start none 0 none)) (.lock landed .wait nofun)) ?_
    refine .take landed .wait flight ?_ nofun
    rw [← inSlot]
    exact runThread_slot store start 0 none
  have returned : landed.threads[0]? = some (.returned (.ok ⟨1, 1, 1, 0, 0⟩)) := rfl
  rw [blockUndo_transparent store atomicStore sample sampleLimits sampleFlush ⟨1⟩
    ⟨start, none⟩ _ _ .refl rfl joining .refl ?_]
  · decide
  · intro purpose other isWriter _
    cases isWriter
    exact ⟨_, atZero ▸ returned⟩

/-- A reader looks into the slot while the running commit is joined, and is told that the block has
no record. -/
theorem blockUndo_absent_while_joining :
    let start := (new sample sampleLimits).run store sampleFlush
    ∃ shared, Reaches store ⟨start, none⟩ shared ∧ start.blockUndo store ⟨1⟩ = some [⟨[], [sampleKey 2]⟩] ∧
      blockUndoAt store start shared.chainstate shared.chainstate ⟨1⟩ = none := by
  intro start
  obtain ⟨flight, inSlot⟩ : ∃ flight, start.inFlight = some flight := isSome_iff_exists.mp (by decide)
  have absent : blockUndoAt store start { start with inFlight := none }
      { start with inFlight := none } ⟨1⟩ = none := by decide
  exact ⟨⟨{ start with inFlight := none }, some (.joining .wait flight)⟩,
    .tail (.single (.lock start .wait nofun)) (.take start .wait flight inSlot nofun), by decide, absent⟩

end Rbtc.WriteBack
