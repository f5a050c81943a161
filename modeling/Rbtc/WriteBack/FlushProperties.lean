import Rbtc.WriteBack.Layer

/-! Flushing moves coins, tips and undo records on without a reader noticing. -/

namespace Rbtc.WriteBack

open Foundation Bitcoin Chainstate List Option NetChange WriteBackChainstate ConnectTransition

variable {σ : Type} {handle : Nat} {fault : Option ChainStoreError} {outcome : FlushResult}

namespace WriteBackChainstate

variable (layer : WriteBackChainstate σ)

def unlanded : Transitions :=
  match layer.inFlight with
  | none => []
  | some flight =>
    match layer.threads[flight.handle]? with
    | some (.returned (.ok _)) => []
    | _ => flight.state.transitions

def history : Transitions :=
  layer.landed ++ layer.unlanded ++ layer.pending.transitions

def Outstanding (handle : Nat) : Prop :=
  ∃ state batches cancelled, layer.threads[handle]? = some (.committing state batches cancelled)

/-- Some background commit has failed, whether or not anyone has joined it. -/
def CommitFailed : Prop :=
  ∃ (handle : Nat) (error : ChainStoreError), layer.threads[handle]? = some (.returned (.error error))

end WriteBackChainstate

structure Committed.HeldBy {σ : Type} (state : Committed) (store : ExecutionChainStore σ) (inner : σ) : Prop where
  coins : state.change.onto (store.get inner) = store.get inner
  tip : store.executionTip inner = state.tip
  undos : ∀ hash undos, undoIn state.transitions hash = some undos → store.blockUndo inner hash = some undos

inductive CommitThread.Failing : CommitThread → Prop
  | refusing : Failing .refusing
  | returned (error : ChainStoreError) : Failing (.returned (.error error))

variable (store : ExecutionChainStore σ) (inner : σ) (state : Committed) (failed : Option ChainStoreError) in
/-- What the thread of a flight may still do or has done. -/
inductive FlightThread : CommitThread → Prop
  | committing (batches cancelled : Nat) (healthy : failed = none) : FlightThread (.committing state batches cancelled)
  | landed (flush : WriteBackFlush) (held : state.HeldBy store inner) (healthy : failed = none) :
      FlightThread (.returned (.ok flush))
  | refusing (marked : failed ≠ none) : FlightThread .refusing
  | failed (error : ChainStoreError) : FlightThread (.returned (.error error))

namespace WriteBackChainstate

variable {store : ExecutionChainStore σ} {layer : WriteBackChainstate σ}

/-- The invariant of the layer, over every interleaving of its critical sections. -/
structure Consistent (store : ExecutionChainStore σ) (layer : WriteBackChainstate σ) : Prop where
  flight : ∀ flight, layer.inFlight = some flight → ∃ thread, layer.threads[flight.handle]? = some thread ∧
      FlightThread store layer.inner flight.state layer.failed thread
  alone : ∀ handle, layer.Outstanding handle → ∃ flight, layer.inFlight = some flight ∧ flight.handle = handle
  failure : layer.CommitFailed ∨ layer.failed ≠ none → ∃ flight thread, layer.inFlight = some flight ∧
      layer.threads[flight.handle]? = some thread ∧ thread.Failing
  refusing : ∀ handle : Nat, layer.threads[handle]? = some .refusing → layer.failed ≠ none
  flight_tip : ∀ flight, layer.inFlight = some flight →
    flight.state.transitions.getLast?.map next = some flight.state.tip
  pending_tip : layer.pending.tip = layer.pending.transitions.getLast?.map next

/-- The second state answers every read as the first does, and has accepted the same batches. -/
structure Transparent (store : ExecutionChainStore σ) (before after : WriteBackChainstate σ) : Prop where
  get : ∀ key, after.get store key = before.get store key
  tip : after.executionTip store = before.executionTip store
  undo : ∀ hash, after.blockUndo store hash = before.blockUndo store hash
  history : after.history = before.history
  failed : before.CommitFailed → after.CommitFailed

theorem Transparent.refl (layer : WriteBackChainstate σ) : Transparent store layer layer :=
  ⟨fun _ => rfl, rfl, fun _ => rfl, rfl, id⟩

variable {first second third : WriteBackChainstate σ} {transitions : Transitions} {tip : ExecutionTip}

theorem Transparent.trans (left : Transparent store first second) (right : Transparent store second third) :
    Transparent store first third where
  get key := (right.get key).trans (left.get key)
  tip := right.tip.trans left.tip
  undo hash := (right.undo hash).trans (left.undo hash)
  history := right.history.trans left.history
  failed := right.failed ∘ left.failed

structure SameBelow (store : ExecutionChainStore σ) (before after : WriteBackChainstate σ) : Prop where
  pending : after.pending = before.pending
  coins : after.baseCoins store = before.baseCoins store
  tip : after.baseTip store = before.baseTip store
  undo : ∀ hash, (after.inFlight.bind fun flight => undoIn flight.state.transitions hash).or
      (store.blockUndo after.inner hash) = (before.inFlight.bind fun flight => undoIn flight.state.transitions hash).or
      (store.blockUndo before.inner hash)
  landed : after.landed ++ after.unlanded = before.landed ++ before.unlanded
  failed : before.CommitFailed → after.CommitFailed

theorem SameBelow.refl (layer : WriteBackChainstate σ) : SameBelow store layer layer :=
  ⟨rfl, rfl, rfl, fun _ => rfl, rfl, id⟩

theorem SameBelow.trans (left : SameBelow store first second) (right : SameBelow store second third) :
    SameBelow store first third where
  pending := right.pending.trans left.pending
  coins := right.coins.trans left.coins
  tip := right.tip.trans left.tip
  undo hash := (right.undo hash).trans (left.undo hash)
  landed := right.landed.trans left.landed
  failed := right.failed ∘ left.failed

theorem SameBelow.transparent {before after : WriteBackChainstate σ}
    (same : SameBelow store before after) : Transparent store before after where
  get key := by rw [get_eq_onto, get_eq_onto, same.pending, same.coins]
  tip := by rw [executionTip_eq, executionTip_eq, same.pending, same.tip]
  undo hash := by
    rw [blockUndo_eq, blockUndo_eq, same.pending, Option.or_assoc, Option.or_assoc, same.undo]
  history := by simp [WriteBackChainstate.history, same.pending, same.landed]
  failed := same.failed

theorem after_eq_of_getLast (last : transitions.getLast?.map next = some tip) (start : ExecutionTip) :
    start.after transitions = tip := by
  rcases eq_nil_or_concat transitions with rfl | ⟨_, _, rfl⟩
  · cases last
  · simpa [ExecutionTip.after] using last

theorem ne_nil_of_getLast (last : transitions.getLast?.map next = some tip) : transitions ≠ [] := by
  rintro rfl
  cases last

theorem runThread_inFlight (slot : Option InFlight) :
    ({ layer with inFlight := slot }).runThread store handle fault =
      { layer.runThread store handle fault with inFlight := slot } := by
  unfold runThread
  dsimp only
  split
  · split <;> rfl
  · rfl
  · rfl
  · rfl

/-- A commit that lands leaves the engine with the whole buffer, one that fails leaves it alone. -/
inductive ThreadStep (store : ExecutionChainStore σ) (layer : WriteBackChainstate σ)
    (handle : Nat) : WriteBackChainstate σ → Prop
  | idle : ThreadStep store layer handle layer
  | landed (state : Committed) (batches cancelled : Nat) (flush : WriteBackFlush) (inner : σ)
      (running : layer.threads[handle]? = some (.committing state batches cancelled))
      (committed : store.commitConnectFolded layer.inner state.transitions
        (sortedKeys state.spent) (sortedEntries state.created) = .ok inner) : ThreadStep store layer handle
        { layer with
          inner
          landed := layer.landed ++ state.transitions
          threads := layer.threads.set handle (.returned (.ok flush)) }
  | failed (thread : CommitThread) (error : ChainStoreError) (running : layer.threads[handle]? = some thread)
      (unreturned : ∀ outcome, thread ≠ .returned outcome) : ThreadStep store layer handle
        { layer with threads := layer.threads.set handle (.returned (.error error)) }

theorem runThread_step (store : ExecutionChainStore σ) (layer : WriteBackChainstate σ)
    (handle : Nat) (fault : Option ChainStoreError) :
    ThreadStep store layer handle (layer.runThread store handle fault) := by
  unfold runThread
  split
  · next state batches cancelled running =>
    dsimp only
    split
    · next inner committed =>
      cases fault with
      | some _ => cases committed
      | none => exact .landed state batches cancelled _ inner running committed
    · exact .failed _ _ running (by simp)
  · next running => exact .failed _ _ running (by simp)
  · exact .idle
  · exact .idle

theorem runThread_lands {handle : Nat} {state : Committed} {batches cancelled : Nat} {inner : σ}
    (running : layer.threads[handle]? = some (.committing state batches cancelled))
    (committed : store.commitConnectFolded layer.inner state.transitions
      (sortedKeys state.spent) (sortedEntries state.created) = .ok inner) :
    ∃ flush, layer.runThread store handle none = { layer with
        inner
        landed := layer.landed ++ state.transitions
        threads := layer.threads.set handle (.returned (.ok flush)) } := by
  refine ⟨⟨batches, saturate 32 state.transitions.length, saturate 64 state.created.keys.card,
    saturate 64 state.spent.card, cancelled⟩, ?_⟩
  simp [runThread, running, committed]

section
variable {thread : CommitThread}

theorem threads_set (layer : WriteBackChainstate σ) {handle : Nat}
    (running : layer.threads[handle]? = some thread) (next : CommitThread) (other : Nat) :
    (layer.threads.set handle next)[other]? = if handle = other then some next else layer.threads[other]? := by
  have inside := (List.getElem_of_getElem? running).1
  rw [List.getElem?_set]
  simp [inside]

variable {after : WriteBackChainstate σ} {other : Nat}

theorem outstanding_of_set {handle : Nat} (running : layer.threads[handle]? = some thread)
    (threads : after.threads = layer.threads.set handle (.returned outcome))
    (outstanding : after.Outstanding other) : handle ≠ other ∧ layer.Outstanding other := by
  obtain ⟨state, batches, cancelled, found⟩ := outstanding
  rw [threads, threads_set layer running] at found
  split at found
  · cases found
  · next distinct => exact ⟨distinct, state, batches, cancelled, found⟩

theorem Consistent.unfailed (consistent : Consistent store layer) {held : InFlight}
    (inSlot : layer.inFlight = some held)
    (found : layer.threads[held.handle]? = some thread) (sound : ¬ thread.Failing) :
    ¬ (layer.CommitFailed ∨ layer.failed ≠ none) := by
  intro failure
  obtain ⟨_, _, inSlot', found', failing⟩ := consistent.failure failure
  obtain rfl := mem_unique inSlot inSlot'
  obtain rfl := mem_unique found found'
  exact sound failing

theorem Consistent.refusing_of_set (consistent : Consistent store layer)
    (running : layer.threads[handle]? = some thread)
    (refusing : (layer.threads.set handle (.returned outcome))[other]? = some .refusing) : layer.failed ≠ none := by
  rw [threads_set layer running] at refusing
  split at refusing
  · cases refusing
  · exact consistent.refusing other refusing

theorem ThreadStep.sameBelow (atomic : AtomicStore store) (consistent : Consistent store layer)
    (step : ThreadStep store layer handle after) : Consistent store after ∧ SameBelow store layer after := by
  cases step with
  | idle => exact ⟨consistent, .refl _⟩
  | landed state batches cancelled flush inner running committed =>
    obtain ⟨flight, inSlot, rfl⟩ := consistent.alone handle ⟨state, batches, cancelled, running⟩
    obtain ⟨thread, found, isFlight⟩ := consistent.flight flight inSlot
    obtain rfl := mem_unique running found
    cases isFlight with
    | committing _ _ healthy =>
    have last := consistent.flight_tip flight inSlot
    obtain ⟨tip, coins, undos⟩ := atomic.folds layer.inner inner flight.state.transitions
      flight.state.change (ne_nil_of_getLast last) committed
    have held : flight.state.HeldBy store inner := by
      refine ⟨by rw [coins, onto_onto], tip.trans (after_eq_of_getLast last _), fun hash found recorded => ?_⟩
      rw [undos, recorded, some_or]
    have noFailure := consistent.unfailed inSlot running (by rintro ⟨⟩)
    constructor
    · refine ⟨fun other inSlot' => ?_, fun other outstanding => ?_, fun failure => ?_,
        fun other refusing => ?_, consistent.flight_tip, consistent.pending_tip⟩
      · obtain rfl := mem_unique inSlot inSlot'
        exact ⟨_, (threads_set layer running _ _).trans (if_pos rfl), .landed flush held healthy⟩
      · obtain ⟨distinct, earlier⟩ := outstanding_of_set running rfl outstanding
        obtain ⟨_, inSlot', same⟩ := consistent.alone other earlier
        obtain rfl := mem_unique inSlot inSlot'
        exact absurd same distinct
      · refine absurd (failure.imp_left ?_) noFailure
        rintro ⟨other, error, found'⟩
        rw [threads_set layer running] at found'
        split at found'
        · cases found'
        · exact ⟨other, error, found'⟩
      · exact consistent.refusing_of_set running refusing
    · refine ⟨rfl, ?_, ?_, fun hash => ?_, ?_, fun failed => absurd (.inl failed) noFailure⟩
      · simp [baseCoins, flightChange, inSlot, coins, onto_onto]
      · simp [baseTip, inSlot]
      · simp only [inSlot, bind_some, undos]
        cases undoIn flight.state.transitions hash <;> rfl
      · simp [unlanded, inSlot, running, threads_set layer running]
  | failed thread error running unreturned =>
    have stillFails : ∀ other : Nat, ∀ thread : CommitThread, layer.threads[other]? = some thread → thread.Failing →
        ∃ thread' : CommitThread, (layer.threads.set handle
          (.returned (.error error)))[other]? = some thread' ∧ thread'.Failing := by
      intro other thread' found failing
      rw [threads_set layer running]
      split
      · exact ⟨_, rfl, .returned error⟩
      · exact ⟨thread', found, failing⟩
    constructor
    · refine ⟨fun flight inSlot => ?_, fun other outstanding => ?_, fun failure => ?_,
        fun other refusing => ?_, consistent.flight_tip, consistent.pending_tip⟩
      · obtain ⟨current, found, isFlight⟩ := consistent.flight flight inSlot
        simp only [threads_set layer running]
        split
        · exact ⟨_, rfl, .failed error⟩
        · exact ⟨current, found, isFlight⟩
      · exact consistent.alone other (outstanding_of_set running rfl outstanding).2
      · by_cases earlier : layer.CommitFailed ∨ layer.failed ≠ none
        · obtain ⟨flight, _, inSlot, found, failing⟩ := consistent.failure earlier
          obtain ⟨next, found', failing'⟩ := stillFails _ _ found failing
          exact ⟨flight, next, inSlot, found', failing'⟩
        cases thread with
        | committing state batches cancelled =>
          obtain ⟨flight, inSlot, rfl⟩ := consistent.alone handle ⟨state, batches, cancelled, running⟩
          exact ⟨flight, _, inSlot, (threads_set layer running _ _).trans (if_pos rfl), .returned error⟩
        | refusing => exact absurd (.inr (consistent.refusing handle running)) earlier
        | returned outcome => exact absurd rfl (unreturned outcome)
      · exact consistent.refusing_of_set running refusing
    · refine ⟨rfl, rfl, rfl, fun hash => rfl, ?_, ?_⟩
      · simp only [unlanded]
        cases layer.inFlight with
        | none => rfl
        | some flight =>
          simp only [threads_set layer running]
          by_cases same : handle = flight.handle
          · subst same
            rw [if_pos rfl, running]
            cases thread with
            | committing | refusing => rfl
            | returned outcome => exact absurd rfl (unreturned outcome)
          · rw [if_neg same]
      · rintro ⟨other, error', found⟩
        refine ⟨other, ?_⟩
        simp only [threads_set layer running]
        split
        · exact ⟨error, rfl⟩
        · exact ⟨error', found⟩

end

variable {flight : InFlight}

theorem settle_sameBelow (consistent : Consistent store layer) (inSlot : layer.inFlight = some flight)
    (returned : layer.threads[flight.handle]? = some (.returned outcome)) :
    Consistent store (({ layer with inFlight := none }).settle flight outcome).1 ∧
      SameBelow store layer (({ layer with inFlight := none }).settle flight outcome).1 := by
  have noneOutstanding : ∀ handle, ¬ layer.Outstanding handle := by
    intro handle outstanding
    obtain ⟨other, inSlot', rfl⟩ := consistent.alone handle outstanding
    obtain rfl := mem_unique inSlot inSlot'
    obtain ⟨state, batches, cancelled, running⟩ := outstanding
    cases returned.symm.trans running
  obtain ⟨thread, found, isFlight⟩ := consistent.flight flight inSlot
  obtain rfl := mem_unique returned found
  cases isFlight with
  | landed _ held _ =>
    have noFailure := consistent.unfailed inSlot returned (by rintro ⟨⟩)
    constructor
    · exact ⟨fun _ inSlot' => (by cases inSlot'), fun handle outstanding => absurd outstanding (noneOutstanding handle),
        fun failure => absurd failure noFailure, consistent.refusing,
        fun _ inSlot' => (by cases inSlot'), consistent.pending_tip⟩
    refine ⟨rfl, ?_, ?_, fun hash => ?_, ?_, id⟩
    · simp [baseCoins, flightChange, inSlot, settle, held.coins]
    · simp [baseTip, inSlot, settle, held.tip]
    · simp only [settle, inSlot, bind_none, bind_some, none_or]
      cases recorded : undoIn flight.state.transitions hash with
      | none => rfl
      | some undos => rw [held.undos hash undos recorded, some_or]
    · simp [unlanded, settle, inSlot, returned]
  | failed _ =>
    have earlier : ∀ (handle : Nat) (thread : CommitThread), (layer.threads ++ [.refusing])[handle]? = some thread →
        layer.threads[handle]? = some thread ∨ thread = .refusing := by
      intro handle thread found'
      rw [getElem?_append] at found'
      split at found'
      · exact .inl found'
      · exact .inr (mem_singleton.mp (mem_of_getElem? found'))
    have added : (layer.threads ++ [CommitThread.refusing])[layer.threads.length]? =
        some .refusing := by simp
    constructor
    · refine ⟨fun other inSlot' => ?_, fun handle outstanding => ?_, fun _ => ?_,
        fun handle _ => by simp [settle], fun other inSlot' => ?_, consistent.pending_tip⟩
      · cases inSlot'
        exact ⟨_, added, .refusing (by simp [settle])⟩
      · obtain ⟨state, batches, cancelled, running⟩ := outstanding
        rcases earlier handle _ running with before | refusing
        · exact absurd ⟨state, batches, cancelled, before⟩ (noneOutstanding handle)
        · cases refusing
      · exact ⟨_, _, rfl, added, .refusing⟩
      · cases inSlot'
        exact consistent.flight_tip flight inSlot
    · refine ⟨rfl, ?_, ?_, fun hash => ?_, ?_, ?_⟩
      · simp [baseCoins, flightChange, inSlot, settle]
      · simp [baseTip, inSlot, settle]
      · simp [settle, inSlot]
      · simp [unlanded, settle, inSlot, returned]
      · rintro ⟨handle, error', found'⟩
        refine ⟨handle, error', ?_⟩
        have inside := (List.getElem_of_getElem? found').1
        simp [settle, getElem?_append_left inside, found']

/-- What `publish` can do: nothing, or move the buffer into the slot of a new thread. -/
inductive PublishStep (layer : WriteBackChainstate σ) (spawned : Bool) :
    WriteBackChainstate σ × Outcome ChainStoreError Bool → Prop
  | empty (isEmpty : layer.pending.transitions = []) :
      PublishStep layer spawned (layer, .ok false)
  | started (tip : ExecutionTip) (isTip : layer.pending.tip = some tip) :
      PublishStep layer spawned ({ layer with
            pending := .empty
            inFlight := some ⟨layer.pending.committed tip, layer.threads.length⟩
            threads := layer.threads ++ [.committing (layer.pending.committed tip)
              layer.pending.batches layer.pending.cancelled] }, .ok true)
  | unspawned (fault : Fault ChainStoreError)
      (cause : spawned = false ∨ layer.pending.transitions ≠ [] ∧ layer.pending.tip = none) :
      PublishStep layer spawned (layer, .error fault)

theorem publish_step (layer : WriteBackChainstate σ) (spawned : Bool) :
    PublishStep layer spawned (layer.publish spawned) := by
  unfold publish
  dsimp only
  split
  · next isEmpty => exact .empty isEmpty
  rename_i nonempty
  split
  · next noTip => exact .unspawned _ (.inr ⟨nonempty, noTip⟩)
  rename_i tip isTip
  split
  · exact .started tip isTip
  rename_i refused
  have rebuilt : ({ layer.pending with tip := some tip }) =
      layer.pending := by rw [← isTip]
  have same : ({ layer with
      pending := { layer.pending with tip := some tip } }) =
      layer := by rw [rebuilt]
  exact same.symm ▸ .unspawned _ (.inl (Bool.eq_false_iff.mpr refused))

section
variable (consistent : Consistent store layer) (slotEmpty : layer.inFlight = none)
include consistent slotEmpty

theorem Consistent.healthy : ¬ (layer.CommitFailed ∨ layer.failed ≠ none) := by
  intro failure
  obtain ⟨_, _, inSlot, -⟩ := consistent.failure failure
  cases slotEmpty.symm.trans inSlot

theorem publish_transparent (spawned : Bool) : Consistent store (layer.publish spawned).1 ∧
      Transparent store layer (layer.publish spawned).1 := by
  have noFailure := consistent.healthy slotEmpty
  have step := publish_step layer spawned
  generalize layer.publish spawned = result at step
  cases step with
  | empty | unspawned => exact ⟨consistent, .refl _⟩
  | started _ isTip =>
    have earlier : ∀ (handle : Nat) (thread fresh : CommitThread), (layer.threads ++ [fresh])[handle]? = some thread →
        layer.threads[handle]? = some thread ∨ handle = layer.threads.length ∧ thread = fresh := by
      intro handle thread fresh found
      rw [getElem?_append] at found
      split at found
      · exact .inl found
      rw [getElem?_singleton] at found
      split at found
      · exact .inr ⟨by omega, (some.inj found).symm⟩
      · cases found
    constructor
    · refine ⟨fun flight inSlot => ?_, fun handle outstanding => ?_, fun failure => ?_,
        fun handle refusing => ?_, fun flight inSlot => ?_, rfl⟩
      · cases inSlot
        exact ⟨_, getElem?_concat_length, .committing _ _ (not_not.mp (not_or.mp noFailure).2)⟩
      · obtain ⟨_, _, _, running⟩ := outstanding
        rcases earlier handle _ _ running with before | ⟨same, -⟩
        · obtain ⟨_, inSlot, -⟩ := consistent.alone handle ⟨_, _, _, before⟩
          cases slotEmpty.symm.trans inSlot
        · exact ⟨_, rfl, same.symm⟩
      · refine absurd (failure.imp_left ?_) noFailure
        rintro ⟨handle, error, found⟩
        rcases earlier handle _ _ found with before | ⟨-, fresh⟩
        · exact ⟨handle, error, before⟩
        · cases fresh
      · rcases earlier handle _ _ refusing with before | ⟨-, fresh⟩
        · exact consistent.refusing handle before
        · cases fresh
      · cases inSlot
        exact consistent.pending_tip.symm.trans isTip
    · refine ⟨fun key => ?_, ?_, fun hash => ?_, ?_, fun failed => absurd (.inl failed) noFailure⟩
      · simp only [get_eq_onto, baseCoins, flightChange, slotEmpty]
        exact congrFun (onto_empty _) key
      · simp [executionTip_eq, baseTip, isTip, Pending.empty, Pending.committed]
      · simp [blockUndo_eq, slotEmpty, Pending.empty, Pending.committed, undoIn]
      · simp [history, unlanded, slotEmpty, Pending.empty, Pending.committed]

end

theorem runThread_slot (store : ExecutionChainStore σ) (layer : WriteBackChainstate σ)
    (handle : Nat) (fault : Option ChainStoreError) :
    (layer.runThread store handle fault).inFlight = layer.inFlight := by
  have step := runThread_step store layer handle fault
  generalize layer.runThread store handle fault = after at step
  cases step <;> rfl

theorem runThread_returns (store : ExecutionChainStore σ) (fault : Option ChainStoreError)
    {thread : CommitThread} (found : layer.threads[handle]? = some thread) :
    ∃ outcome, (layer.runThread store handle fault).threads[handle]? = some (.returned outcome) := by
  unfold runThread
  simp only [found]
  cases thread with
  | committing _ _ _ =>
    dsimp only
    split <;> simp [threads_set layer found]
  | refusing => exact ⟨_, (threads_set layer found _ _).trans (if_pos rfl)⟩
  | returned outcome => exact ⟨outcome, found⟩

theorem runThread_keeps {other : Nat} (returned : layer.threads[other]? = some (.returned outcome)) :
    (layer.runThread store handle fault).threads[other]? = some (.returned outcome) := by
  have step := runThread_step store layer handle fault
  generalize layer.runThread store handle fault = next at step
  cases step with
  | idle => exact returned
  | landed _ _ _ _ _ running =>
    rw [threads_set layer running, if_neg, returned]
    rintro rfl
    cases running.symm.trans returned
  | failed _ _ running unreturned =>
    rw [threads_set layer running, if_neg, returned]
    rintro rfl
    exact unreturned outcome (mem_unique running returned)

theorem join_of_returned (returned : layer.threads[handle]? = some (.returned outcome)) :
    layer.join handle = outcome := by
  simp [join, returned]

theorem waitInFlightLocked_spec (atomic : AtomicStore store)
    (consistent : Consistent store layer) (fault : Option ChainStoreError) :
    Consistent store (layer.waitInFlightLocked store fault).1 ∧
      SameBelow store layer (layer.waitInFlightLocked store fault).1 ∧
      (∀ record, (layer.waitInFlightLocked store fault).2 = .ok record →
        (layer.waitInFlightLocked store fault).1.inFlight = none) ∧ (layer.CommitFailed →
        ∃ error, (layer.waitInFlightLocked store fault).2 = .error (.refused error)) := by
  unfold waitInFlightLocked
  cases inSlot : layer.inFlight with
  | none =>
    refine ⟨consistent, .refl _, fun _ _ => inSlot, fun failed => ?_⟩
    obtain ⟨flight, _, inSlot', -⟩ := consistent.failure (.inl failed)
    cases inSlot.symm.trans inSlot'
  | some flight =>
    obtain ⟨_, found, -⟩ := consistent.flight flight inSlot
    have step := runThread_step store layer flight.handle fault
    obtain ⟨outcome, returned⟩ := runThread_returns store fault found
    have slot := (runThread_slot store layer flight.handle fault).trans inSlot
    obtain ⟨ranConsistent, ranSame⟩ := step.sameBelow atomic consistent
    obtain ⟨settledConsistent, settledSame⟩ := settle_sameBelow ranConsistent slot returned
    simp only [runThread_inFlight]
    have joined : ({ layer.runThread store flight.handle fault with
        inFlight := none }).join flight.handle = outcome :=
      join_of_returned returned
    rw [joined]
    refine ⟨settledConsistent, ranSame.trans settledSame, fun record ok => ?_, fun failed => ?_⟩
    · cases outcome with
      | ok _ => rfl
      | error error => cases ok
    obtain ⟨_, _, slot', found', failing⟩ := ranConsistent.failure (.inl (ranSame.failed failed))
    obtain rfl := mem_unique slot slot'
    obtain rfl := mem_unique returned found'
    cases failing with
    | returned error => exact ⟨error, rfl⟩

theorem startFlush_spec (atomic : AtomicStore store) (consistent : Consistent store layer)
    (spawned : Bool) (fault : Option ChainStoreError) : Consistent store (layer.startFlush store spawned fault).1 ∧
      Transparent store layer (layer.startFlush store spawned fault).1 ∧ (layer.CommitFailed →
        ∃ error, (layer.startFlush store spawned fault).2 = .error (.refused error)) := by
  obtain ⟨waitedConsistent, waitedSame, emptied, refused⟩ := waitInFlightLocked_spec atomic consistent fault
  unfold startFlush checkFailed ensure
  split
  · next stopped checked =>
    split at checked
    · cases checked
    · cases checked
      exact ⟨consistent, .refl _, fun _ => ⟨_, rfl⟩⟩
  split
  · next waited stopped isWait =>
    rw [isWait] at waitedConsistent waitedSame refused
    refine ⟨waitedConsistent, waitedSame.transparent, fun failed => ?_⟩
    obtain ⟨error, isError⟩ := refused failed
    exact ⟨error, congrArg Except.error (Except.error.inj isError)⟩
  rename_i waited record isWait
  rw [isWait] at waitedConsistent waitedSame emptied refused
  obtain ⟨publishedConsistent, publishedTransparent⟩ :=
    publish_transparent waitedConsistent (emptied record rfl) spawned
  refine ⟨publishedConsistent, waitedSame.transparent.trans publishedTransparent, fun failed => ?_⟩
  obtain ⟨_, isError⟩ := refused failed
  cases isError

theorem isFinished_eq_true (finished : layer.isFinished handle = true) :
    ∃ outcome, layer.threads[handle]? = some (.returned outcome) := by
  unfold isFinished at finished
  split at finished
  · next outcome returned => exact ⟨outcome, returned⟩
  · cases finished

variable (consistent : Consistent store layer)
include consistent

theorem harvest_sameBelow : Consistent store layer.harvest ∧ SameBelow store layer layer.harvest := by
  unfold harvest
  split
  · next flight inSlot =>
    split
    · next finished =>
      obtain ⟨_, returned⟩ := isFinished_eq_true finished
      rw [join_of_returned returned]
      exact settle_sameBelow consistent inSlot returned
    · exact ⟨consistent, .refl _⟩
  · exact ⟨consistent, .refl _⟩

theorem report_sameBelow : Consistent store layer.report.1 ∧ SameBelow store layer layer.report.1 := by
  unfold report
  split
  · exact ⟨consistent, .refl _⟩
  · exact ⟨⟨consistent.flight, consistent.alone, consistent.failure, consistent.refusing,
      consistent.flight_tip, consistent.pending_tip⟩, ⟨rfl, rfl, rfl, fun _ => rfl, rfl, id⟩⟩

theorem takeLastFlush_spec : Consistent store layer.takeLastFlush.1 ∧ SameBelow store layer layer.takeLastFlush.1 := by
  obtain ⟨harvested, transparent⟩ := harvest_sameBelow consistent
  obtain ⟨reported, transparent'⟩ := report_sameBelow harvested
  exact ⟨reported, transparent.trans transparent'⟩

end WriteBackChainstate

end Rbtc.WriteBack
