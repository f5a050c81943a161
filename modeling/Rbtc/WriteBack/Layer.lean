import Rbtc.Chainstate.Coins
import Rbtc.Foundation.BatchRead

/-! The write-back layer: an accepting buffer, a buffer being committed, and the engine. Reads through it, and
the net change that staging a batch makes to the accepting buffer. -/

namespace Rbtc.WriteBack

open Foundation Bitcoin Chainstate

/-- The part of the `ExecutionChainStore` trait the layer uses. A failed commit leaves the engine as it was. -/
structure ExecutionChainStore (σ : Type) where
  get : σ → CoinMap
  getMany : σ → List OutPointKey → List (OutPointKey × Option Utxo)
  executionTip : σ → ExecutionTip
  blockUndo : σ → BlockHash → Option (List UtxoUndo)
  commitConnect : σ → ConnectTransition → Except ChainStoreError σ
  commitConnectFolded : σ → Transitions → List OutPointKey →
    List CoinEntry → Except ChainStoreError σ

structure WriteBackLimits where
  maxBatches : Nat
  maxCreated : Nat
  deriving DecidableEq, Repr

/-- What one flush wrote to the inner store, without its wall times. -/
structure WriteBackFlush where
  batches : Nat
  blocks : Nat
  created : Nat
  spent : Nat
  cancelled : Nat
  deriving DecidableEq, Repr

abbrev FlushResult := Except ChainStoreError WriteBackFlush

structure Pending where
  transitions : Transitions
  created : CoinTable
  spent : Finset OutPointKey
  tip : Option ExecutionTip
  batches : Nat
  cancelled : Nat

namespace Pending

def empty : Pending :=
  { transitions := [], created := ∅, spent := ∅, tip := none, batches := 0, cancelled := 0 }

def change (pending : Pending) : NetChange OutPointKey Utxo := ⟨pending.spent, pending.created⟩

end Pending

structure Committed where
  transitions : Transitions
  created : CoinTable
  spent : Finset OutPointKey
  tip : ExecutionTip

def Pending.committed (pending : Pending) (tip : ExecutionTip) : Committed :=
  { transitions := pending.transitions
    created := pending.created
    spent := pending.spent
    tip }

def Committed.change (state : Committed) : NetChange OutPointKey Utxo :=
  ⟨state.spent, state.created⟩

/-- It commits a buffer, was spawned after a failure only to fail again, or has returned. -/
inductive CommitThread where
  | committing (state : Committed) (batches cancelled : Nat)
  | refusing
  | returned (outcome : FlushResult)

structure InFlight where
  state : Committed
  handle : Nat

/-- `threads` lists every thread ever spawned, by handle, and `landed` every transition the engine has taken. -/
structure WriteBackChainstate (σ : Type) where
  inner : σ
  limits : WriteBackLimits
  pending : Pending
  inFlight : Option InFlight
  finished : List WriteBackFlush
  failed : Option ChainStoreError
  threads : List CommitThread
  landed : Transitions

def malformed (text : String) : ChainStoreError := .utxo (.malformed text)

namespace WriteBackChainstate

variable {σ : Type}

def new (inner : σ) (limits : WriteBackLimits) : WriteBackChainstate σ :=
  { inner
    limits :=
      { maxBatches := max limits.maxBatches 1
        maxCreated := max limits.maxCreated 1 }
    pending := .empty
    inFlight := none
    finished := []
    failed := none
    threads := []
    landed := [] }

section
variable (store : ExecutionChainStore σ) (chainstate : WriteBackChainstate σ)

def isFinished (handle : Nat) : Bool :=
  match chainstate.threads[handle]? with
  | some (.returned _) => true
  | _ => false

def join (handle : Nat) : FlushResult :=
  match chainstate.threads[handle]? with
  | some (.returned outcome) => outcome
  | _ => .error (malformed "write-back commit thread panicked")

/-- A fault is an error of the engine's environment, or a panic under which the commit takes no effect. -/
def runThread (handle : Nat) (fault : Option ChainStoreError) : WriteBackChainstate σ :=
  match chainstate.threads[handle]? with
  | some (.committing state batches cancelled) =>
    let committed : Except ChainStoreError σ := match fault with
      | some error => .error error
      | none => store.commitConnectFolded chainstate.inner state.transitions
          (sortedKeys state.spent) (sortedEntries state.created)
    match committed with
    | .ok inner =>
      { chainstate with
        inner
        landed := chainstate.landed ++ state.transitions
        threads := chainstate.threads.set handle (.returned (.ok
          { batches
            blocks := saturate 32 state.transitions.length
            created := saturate 64 state.created.keys.card
            spent := saturate 64 state.spent.card
            cancelled })) }
    | .error error =>
      { chainstate with
        threads := chainstate.threads.set handle (.returned (.error error)) }
  | some .refusing =>
    { chainstate with
      threads := chainstate.threads.set handle
        (.returned (.error (malformed "write-back commit already failed"))) }
  | some (.returned _) | none => chainstate

def commitInProgress : Bool :=
  match chainstate.inFlight with
  | some flight => !chainstate.isFinished flight.handle
  | none => false

def checkFailed : Outcome ChainStoreError Unit :=
  ensure (chainstate.failed = none)
    (.refused (malformed "write-back commit failed earlier; the store must be reopened"))

end

section
variable (store : ExecutionChainStore σ) (chainstate : WriteBackChainstate σ)

def settle (flight : InFlight) (outcome : FlushResult) :
    WriteBackChainstate σ × Outcome ChainStoreError WriteBackFlush :=
  match outcome with
  | .ok flush => ({ chainstate with finished := chainstate.finished ++ [flush] }, .ok flush)
  | .error error =>
    -- The buffer stays readable behind a thread that only fails again.
    ({ chainstate with
        failed := some error
        inFlight := some { state := flight.state, handle := chainstate.threads.length }
        threads := chainstate.threads ++ [.refusing] }, .error (.refused error))

/-- Waits for the background commit under the pending write lock; a running thread returns
meanwhile, with the given fault. -/
def waitInFlightLocked (fault : Option ChainStoreError) :
    WriteBackChainstate σ × Outcome ChainStoreError (Option WriteBackFlush) :=
  match chainstate.inFlight with
  | none => (chainstate, .ok none)
  | some flight =>
    let joined := ({ chainstate with inFlight := none }).runThread store flight.handle fault
    let (settled, outcome) := joined.settle flight (joined.join flight.handle)
    (settled, outcome.map some)

/-- Moves the accepting buffer into the empty slot of a newly spawned commit thread. -/
def publish (spawned : Bool) : WriteBackChainstate σ × Outcome ChainStoreError Bool :=
  let pending := chainstate.pending
  if pending.transitions = [] then (chainstate, .ok false)
  else
    match pending.tip with
    | none => (chainstate, .error .panicked)
    | some tip =>
      let state := pending.committed tip
      if spawned then
        ({ chainstate with
            pending := .empty
            inFlight := some { state, handle := chainstate.threads.length }
            threads := chainstate.threads ++ [.committing state pending.batches pending.cancelled] }, .ok true)
      else
        ({ chainstate with
            pending :=
              { transitions := state.transitions
                created := state.created
                spent := state.spent
                tip := some state.tip
                batches := pending.batches
                cancelled := pending.cancelled } },
          .error (.refused (malformed "could not spawn the write-back commit thread")))

/-- Hands the buffer to a background thread. -/
def startFlush (spawned : Bool) (fault : Option ChainStoreError) :
    WriteBackChainstate σ × Outcome ChainStoreError Bool :=
  match chainstate.checkFailed with
  | .error fault => (chainstate, .error fault)
  | .ok () =>
    match chainstate.waitInFlightLocked store fault with
    | (waited, .error fault) => (waited, .error fault)
    | (waited, .ok _) => waited.publish spawned

/-- Settles a background commit that finished on its own, without blocking on one that runs. -/
def harvest : WriteBackChainstate σ :=
  match chainstate.inFlight with
  | some flight =>
    if chainstate.isFinished flight.handle then
      (({ chainstate with inFlight := none }).settle flight (chainstate.join flight.handle)).1
    else chainstate
  | none => chainstate

def report : WriteBackChainstate σ × Option WriteBackFlush :=
  match chainstate.finished with
  | [] => (chainstate, none)
  | oldest :: rest => ({ chainstate with finished := rest }, some oldest)

def takeLastFlush : WriteBackChainstate σ × Option WriteBackFlush := chainstate.harvest.report

end

section
variable (store : ExecutionChainStore σ) (chainstate : WriteBackChainstate σ)

def inFlightState : Option Committed := chainstate.inFlight.map InFlight.state

/-- The newest tip the layer knows: accepting buffer, in-flight buffer, then the engine. -/
def currentTip : ExecutionTip :=
  match chainstate.pending.tip with
  | some tip => tip
  | none =>
    match chainstate.inFlightState with
    | some state => state.tip
    | none => store.executionTip chainstate.inner

inductive BufferAnswer where
  | coin (utxo : Utxo)
  | spent
  | unknown

def lookupBuffers (pending : Pending) (inFlight : Option Committed) (key : OutPointKey) :
    BufferAnswer :=
  match pending.created.lookup key with
  | some utxo => .coin utxo
  | none =>
    if key ∈ pending.spent then .spent
    else
      match inFlight with
      | none => .unknown
      | some state =>
        match state.created.lookup key with
        | some utxo => .coin utxo
        | none => if key ∈ state.spent then .spent else .unknown

def get (key : OutPointKey) : Option Utxo :=
  match lookupBuffers chainstate.pending chainstate.inFlightState key with
  | .coin utxo => some utxo
  | .spent => none
  | .unknown => store.get chainstate.inner key

/-- What the buffers say of a key, if the engine need not be asked. -/
def bufferAnswer (key : OutPointKey) : Option (Option Utxo) :=
  match lookupBuffers chainstate.pending chainstate.inFlightState key with
  | .coin utxo => some (some utxo)
  | .spent => some none
  | .unknown => none

def getMany (keys : List OutPointKey) : Except UtxoError (List (OutPointKey × Option Utxo)) :=
  let resolving := BatchRead.addAll chainstate.bufferAnswer keys
  if resolving.wanted = [] then .ok resolving.results
  else
    let resolved := store.getMany chainstate.inner resolving.wanted
    if resolved.length ≠ resolving.wanted.length then
      .error (.malformed "inner store returned a misaligned get_many result")
    else .ok (resolving.fill (resolved.map Prod.snd))

def executionTip : ExecutionTip := chainstate.currentTip store

def undoIn (transitions : Transitions) (hash : BlockHash) : Option (List UtxoUndo) :=
  (transitions.reverse.find? fun transition => transition.next.hash = hash).map ConnectTransition.transactionUndos

/-- The three lookups of `block_undo`, each in the state in which its lock is held. -/
def blockUndoAt (atPending atInFlight atEngine : WriteBackChainstate σ) (hash : BlockHash) :
    Option (List UtxoUndo) :=
  match undoIn atPending.pending.transitions hash with
  | some undos => some undos
  | none =>
    match atInFlight.inFlightState.bind fun state => undoIn state.transitions hash with
    | some undos => some undos
    | none => store.blockUndo atEngine.inner hash

def blockUndo (hash : BlockHash) : Option (List UtxoUndo) :=
  blockUndoAt store chainstate chainstate chainstate hash

end

variable (store : ExecutionChainStore σ) (chainstate : WriteBackChainstate σ)

structure Staged where
  tip : ExecutionTip
  created : List CoinEntry
  spent : List OutPointKey
  cancelled : List OutPointKey
  batchCreated : Finset OutPointKey
  batchSpent : Finset OutPointKey

def knownCreated (key : OutPointKey) : Prop :=
  key ∈ chainstate.pending.created ∨ ∃ state ∈ chainstate.inFlightState, key ∈ state.created

def knownSpent (key : OutPointKey) : Prop :=
  key ∈ chainstate.pending.spent ∨ ∃ state ∈ chainstate.inFlightState, key ∈ state.spent

instance (key : OutPointKey) : Decidable (chainstate.knownCreated key) :=
  inferInstanceAs (Decidable (_ ∨ _))

instance (key : OutPointKey) : Decidable (chainstate.knownSpent key) :=
  inferInstanceAs (Decidable (_ ∨ _))

variable (staged : Staged)

def Staged.cancel (key : OutPointKey) : Staged :=
  { staged with
    batchSpent := insert key staged.batchSpent
    batchCreated := staged.batchCreated.erase key
    cancelled := staged.cancelled ++ [key] }

def Staged.spend (key : OutPointKey) : Staged :=
  { staged with
    batchSpent := insert key staged.batchSpent
    spent := staged.spent ++ [key] }

def Staged.create (coin : CoinEntry) : Staged :=
  { staged with
    batchCreated := insert coin.1 staged.batchCreated
    created := staged.created ++ [coin] }

def stageSpend (key : OutPointKey) : Outcome ChainStoreError Staged := do
  ensure (key ∉ staged.batchSpent ∧ ¬ chainstate.knownSpent key) (.refused (.utxo (.duplicateSpend key)))
  if key ∈ staged.batchCreated ∨ key ∈ chainstate.pending.created then return staged.cancel key
  else return staged.spend key

def stageCreate (coin : CoinEntry) : Outcome ChainStoreError Staged := do
  ensure (coin.1 ∉ staged.batchCreated ∧ ¬ chainstate.knownCreated coin.1) (.refused (.utxo (.duplicate coin.1)))
  return staged.create coin

def stageTransition (transition : ConnectTransition) :
    Outcome ChainStoreError Staged := do
  ensure (staged.tip.Precedes transition)
    (.refused (.execution (.nonSequential staged.tip.height staged.tip.hash)))
  let spent ← foldOutcome chainstate.stageSpend staged transition.spent
  let created ← foldOutcome chainstate.stageCreate spent transition.created
  return { created with tip := transition.next }

def stageBatch (transitions : Transitions) : Outcome ChainStoreError Staged :=
  foldOutcome chainstate.stageTransition
    { tip := chainstate.currentTip store
      created := []
      spent := []
      cancelled := []
      batchCreated := ∅
      batchSpent := ∅ } transitions

/-- The created coins after a staged batch: coins cancelled in it are neither kept nor inserted. -/
def mergeCreated (created : CoinTable) (staged : Staged) : CoinTable :=
  let inserted := staged.created.foldl (fun table coin =>
    if coin.1 ∈ staged.cancelled then table else table.insert coin.1 coin.2) created
  inserted.eraseAll staged.cancelled

/-- The accepting buffer after a staged batch, whose transitions keep their tips, spends and undo
records only. -/
def merge (pending : Pending) (transitions : Transitions) (staged : Staged) : Pending :=
  { transitions := pending.transitions ++ transitions.map ({ · with created := [] })
    created := mergeCreated pending.created staged
    spent := pending.spent ∪ staged.spent.toFinset
    tip := some staged.tip
    batches := saturatingAdd 32 pending.batches 1
    cancelled := saturate 64 (pending.cancelled + saturate 64 staged.cancelled.length) }

/-- The critical section of `buffer`. It answers whether a flush is to be started after it. -/
def bufferSection (transitions : Transitions) : WriteBackChainstate σ × Outcome ChainStoreError Bool :=
  if transitions = [] then (chainstate, .ok false)
  else
    match chainstate.checkFailed >>= fun _ => chainstate.stageBatch store transitions with
    | .error fault => (chainstate, .error fault)
    | .ok staged =>
      let next := { chainstate with pending := merge chainstate.pending transitions staged }
      let created := saturate 64 next.pending.created.keys.card
      let limitHit := next.limits.maxBatches ≤ next.pending.batches ∨ next.limits.maxCreated ≤ created
      -- The batch limit is a target: while a commit runs, twice as many batches are accepted.
      let mustFlush := saturatingMul 32 next.limits.maxBatches 2 ≤ next.pending.batches ∨
        next.limits.maxCreated ≤ created
      (next, .ok (decide (limitHit ∧ (mustFlush ∨ next.commitInProgress = false))))

/-- Buffers a batch and starts a flush when one is due. -/
def buffer (transitions : Transitions) (spawned : Bool)
    (fault : Option ChainStoreError) : WriteBackChainstate σ × Outcome ChainStoreError Unit :=
  match chainstate.bufferSection store transitions with
  | (next, .error fault) => (next, .error fault)
  | (next, .ok false) => (next, .ok ())
  | (next, .ok true) =>
    let (flushed, outcome) := next.startFlush store spawned fault
    (flushed, outcome.map fun _ => ())

end WriteBackChainstate

open List NetChange

def ledgerOf {σ : Type} (store : ExecutionChainStore σ) (state : σ) : Ledger :=
  ⟨store.executionTip state, store.get state⟩

/-- What the `ExecutionChainStore` trait documents of an engine whose folded commit is atomic. -/
structure AtomicStore {σ : Type} (store : ExecutionChainStore σ) : Prop where
  getMany_eq : ∀ state keys, store.getMany state keys = keys.map fun key => (key, store.get state key)
  connects : ∀ state transition, (ledgerOf store state).Accepts transition →
    ∃ next, store.commitConnect state transition = .ok next ∧
      ledgerOf store next = (ledgerOf store state).connect transition
  folds : ∀ state next transitions (change : NetChange OutPointKey Utxo), transitions ≠ [] →
    store.commitConnectFolded state transitions (sortedKeys change.spent)
      (sortedEntries change.created) = .ok next →
    store.executionTip next = (store.executionTip state).after transitions ∧
      store.get next = change.onto (store.get state) ∧ ∀ hash, store.blockUndo next hash =
        (WriteBackChainstate.undoIn transitions hash).or (store.blockUndo state hash)
  accepts : ∀ state transitions (change : NetChange OutPointKey Utxo), transitions ≠ [] →
    (store.executionTip state).Contiguous transitions → change.Fits (store.get state) →
    ∃ next, store.commitConnectFolded state transitions (sortedKeys change.spent)
      (sortedEntries change.created) = .ok next

theorem AtomicStore.connectsAll {σ : Type} {store : ExecutionChainStore σ} (atomic : AtomicStore store)
    {state : σ} {transitions : Transitions} (accepts : (ledgerOf store state).AcceptsAll transitions) :
    ∃ next, foldOutcome store.commitConnect state transitions = .ok next ∧
      ledgerOf store next = (ledgerOf store state).connectAll transitions := by
  induction transitions generalizing state with
  | nil => exact ⟨state, rfl, rfl⟩
  | cons transition _ ih =>
    obtain ⟨valid, later⟩ := accepts
    obtain ⟨_, connected, ledger⟩ := atomic.connects state transition valid
    rw [← ledger] at later
    obtain ⟨next, committed, final⟩ := ih later
    refine ⟨next, ?_, ?_⟩
    · rw [foldOutcome_cons, connected, ok_bind, committed]
    · rw [final, ledger]
      rfl

namespace WriteBackChainstate

section
variable {σ : Type} (store : ExecutionChainStore σ) (layer : WriteBackChainstate σ)

def flightChange : NetChange OutPointKey Utxo :=
  match layer.inFlight with
  | some flight => flight.state.change
  | none => ∅

def baseCoins : CoinMap :=
  layer.flightChange.onto (store.get layer.inner)

def baseTip : ExecutionTip :=
  match layer.inFlight with
  | some flight => flight.state.tip
  | none => store.executionTip layer.inner

theorem get_eq_onto (key : OutPointKey) : layer.get store key =
      layer.pending.change.onto (layer.baseCoins store) key := by
  unfold get lookupBuffers
  cases created : layer.pending.created.lookup key with
  | some _ => rw [onto_of_created created]
  | none =>
    by_cases spent : key ∈ layer.pending.spent
    · rw [onto_of_spent created spent, if_pos spent]
    rw [onto_of_untouched created spent, if_neg spent, baseCoins, flightChange, inFlightState]
    cases layer.inFlight with
    | none => simp
    | some flight =>
      dsimp only [Option.map_some]
      cases flightCreated : flight.state.created.lookup key with
      | some _ => rw [onto_of_created flightCreated]
      | none =>
        by_cases flightSpent : key ∈ flight.state.spent
        · rw [onto_of_spent flightCreated flightSpent, if_pos flightSpent]
        · rw [onto_of_untouched flightCreated flightSpent, if_neg flightSpent]

theorem blockUndo_eq (hash : BlockHash) : layer.blockUndo store hash = ((undoIn layer.pending.transitions hash).or
        (layer.inFlight.bind fun flight => undoIn flight.state.transitions hash)).or
          (store.blockUndo layer.inner hash) := by
  simp only [blockUndo, blockUndoAt, inFlightState, Option.bind_map, Function.comp_def]
  cases undoIn layer.pending.transitions hash with
  | some _ => rfl
  | none =>
    cases layer.inFlight.bind fun flight => undoIn flight.state.transitions hash <;> rfl

theorem executionTip_eq : layer.executionTip store = layer.pending.tip.getD (layer.baseTip store) := by
  simp only [executionTip, currentTip, baseTip, inFlightState]
  cases layer.pending.tip with
  | some _ => rfl
  | none => cases layer.inFlight <;> rfl

end

variable {σ : Type} {store : ExecutionChainStore σ} {layer : WriteBackChainstate σ}

theorem get_eq_getD (key : OutPointKey) :
    layer.get store key = (layer.bufferAnswer key).getD (store.get layer.inner key) := by
  unfold get bufferAnswer
  split <;> rfl

theorem getMany_eq (atomic : AtomicStore store) (layer : WriteBackChainstate σ) (keys : List OutPointKey) :
    layer.getMany store keys = .ok (keys.map fun key => (key, layer.get store key)) := by
  have filled := (BatchRead.answers_addAll layer.bufferAnswer (store.get layer.inner) keys).filled
  rw [funext get_eq_getD, getMany, ← filled]
  dsimp only
  split
  · next noneWanted => simp [noneWanted, BatchRead.fill]
  · rw [atomic.getMany_eq, if_neg (by simp), List.map_map]
    rfl

open Table Prod Function ConnectTransition

variable {σ : Type} {layer : WriteBackChainstate σ}

theorem lookup_mergeCreated (created : CoinTable) (staged : Staged) (key : OutPointKey) :
    (mergeCreated created staged).lookup key = if key ∈ staged.cancelled then none
      else ((ofList staged.created.reverse).lookup key).or (created.lookup key) := by
  rw [mergeCreated, lookup_eraseAll]
  split
  · rfl
  rename_i kept
  rw [← foldr_reverse]
  induction staged.created.reverse with
  | nil => simp
  | cons coin _ ih =>
    rw [foldr_cons, lookup_ofList_cons]
    by_cases same : key = coin.1
    · rw [if_neg (same ▸ kept), lookup_insert, if_pos same, if_pos same]
      rfl
    rw [if_neg same, ← ih]
    split
    · rfl
    · rw [lookup_insert, if_neg same]

def stagedChange (layer : WriteBackChainstate σ) (staged : Staged) :
    NetChange OutPointKey Utxo :=
  ⟨layer.pending.spent ∪ staged.spent.toFinset, mergeCreated layer.pending.created staged⟩

/-- The loop invariant: the staged part shows the coins that committing one by one would show. -/
structure Stages (layer : WriteBackChainstate σ) (base coins : CoinMap)
    (staged : Staged) : Prop where
  nodup : (staged.created.map fst).Nodup
  fresh : ∀ key ∈ staged.created.map fst, key ∉ layer.pending.created
  batchCreated_iff : ∀ key, key ∈ staged.batchCreated ↔ key ∈ staged.created.map fst ∧ key ∉ staged.cancelled
  spent_seen : ∀ key ∈ staged.spent, key ∈ staged.batchSpent
  cancelled_seen : ∀ key ∈ staged.cancelled, key ∈ staged.batchSpent ∧
    (key ∈ staged.created.map fst ∨ key ∈ layer.pending.created)
  fits : (layer.stagedChange staged).Fits base
  shown : (layer.stagedChange staged).onto base = coins

theorem lookup_stagedChange (layer : WriteBackChainstate σ) (staged : Staged)
    (key : OutPointKey) : (layer.stagedChange staged).created.lookup key = if key ∈ staged.cancelled then none
      else ((ofList staged.created.reverse).lookup key).or (layer.pending.created.lookup key) :=
  lookup_mergeCreated _ _ _

theorem mem_stagedChange_spent {layer : WriteBackChainstate σ} {staged : Staged}
    {key : OutPointKey} : key ∈ (layer.stagedChange staged).spent ↔ key ∈ layer.pending.spent ∨ key ∈ staged.spent := by
  simp [stagedChange]

/-- No key is spent twice or created twice between two flushes. -/
structure TouchesOnce (layer : WriteBackChainstate σ) (transitions : Transitions) : Prop where
  spent_nodup : (transitions.flatMap spent).Nodup
  spent_unknown : ∀ key ∈ transitions.flatMap spent, ¬ layer.knownSpent key
  created_nodup : (transitions.flatMap fun transition => transition.created.map fst).Nodup
  created_unknown : ∀ key ∈ transitions.flatMap fun transition => transition.created.map fst, ¬ layer.knownCreated key

namespace Stages

variable {base coins : CoinMap} {staged : Staged} {key : OutPointKey}
  (stages : Stages layer base coins staged)
include stages

theorem cancel (unspent : key ∉ (layer.stagedChange staged).spent)
    (created : (layer.stagedChange staged).created.lookup key ≠ none)
    (known : key ∈ staged.created.map fst ∨ key ∈ layer.pending.created) :
    Stages layer base (update coins key none) (staged.cancel key) := by
  have agrees : (layer.stagedChange staged).AgreesOff (layer.stagedChange (staged.cancel key)) key := by
    refine ⟨fun other distinct => ?_, fun other _ => Iff.rfl⟩
    simp [lookup_stagedChange, Staged.cancel, distinct]
  have removed : (layer.stagedChange (staged.cancel key)).created.lookup key = none := by
    simp [lookup_stagedChange, Staged.cancel]
  refine ⟨stages.nodup, stages.fresh, fun other => ?_, fun other member => ?_,
    fun other member => ?_, agrees.fits stages.fits (fun spent => absurd spent unspent)
      (fun stays => absurd removed stays), ?_⟩
  · simp only [Staged.cancel, Finset.mem_erase, stages.batchCreated_iff, mem_append, mem_singleton]
    tauto
  · exact Finset.mem_insert_of_mem (stages.spent_seen other member)
  · simp only [Staged.cancel, mem_append, mem_singleton] at member
    rcases member with earlier | rfl
    · exact ⟨Finset.mem_insert_of_mem (stages.cancelled_seen other earlier).1, (stages.cancelled_seen other earlier).2⟩
    · exact ⟨Finset.mem_insert_self _ _, known⟩
  · rw [agrees.onto_eq, stages.shown, onto_of_untouched removed unspent, stages.fits.created_fresh key created unspent]

theorem spendBelow (unspent : key ∉ (layer.stagedChange staged).spent)
    (absent : (layer.stagedChange staged).created.lookup key = none) (present : coins key ≠ none) :
    Stages layer base (update coins key none) (staged.spend key) := by
  have agrees : (layer.stagedChange staged).AgreesOff (layer.stagedChange (staged.spend key)) key := by
    refine ⟨fun other distinct => rfl, fun other distinct => ?_⟩
    simp [mem_stagedChange_spent, Staged.spend, distinct]
  have stillAbsent : (layer.stagedChange (staged.spend key)).created.lookup key = none := absent
  have spent : key ∈ (layer.stagedChange (staged.spend key)).spent := by
    simp [mem_stagedChange_spent, Staged.spend]
  have inBase : base key = coins key := by
    rw [← stages.shown, onto_of_untouched absent unspent]
  refine ⟨stages.nodup, stages.fresh, stages.batchCreated_iff, fun other member => ?_,
    fun other member => ⟨Finset.mem_insert_of_mem (stages.cancelled_seen other member).1,
      (stages.cancelled_seen other member).2⟩,
    agrees.fits stages.fits (fun _ => inBase ▸ present) (fun stays => absurd stillAbsent stays), ?_⟩
  · simp only [Staged.spend, mem_append, mem_singleton] at member
    rcases member with earlier | rfl
    · exact Finset.mem_insert_of_mem (stages.spent_seen other earlier)
    · exact Finset.mem_insert_self _ _
  · rw [agrees.onto_eq, stages.shown, onto_of_spent stillAbsent spent]

theorem stageSpend (unseen : key ∉ staged.batchSpent) (unknown : ¬ layer.knownSpent key) (present : coins key ≠ none) :
    ∃ next, layer.stageSpend staged key = .ok next ∧ Stages layer base (update coins key none) next ∧
      next.batchSpent = insert key staged.batchSpent ∧ next.created = staged.created ∧ next.tip = staged.tip := by
  have notCancelled : key ∉ staged.cancelled := fun member =>
    unseen (stages.cancelled_seen key member).1
  have unspent : key ∉ (layer.stagedChange staged).spent := by
    rw [mem_stagedChange_spent, not_or]
    exact ⟨fun member => unknown (.inl member), fun member => unseen (stages.spent_seen key member)⟩
  have lookup := lookup_stagedChange layer staged key
  rw [if_neg notCancelled] at lookup
  have inBatch : key ∈ staged.batchCreated ↔ key ∈ staged.created.map fst := by
    rw [stages.batchCreated_iff]
    exact and_iff_left notCancelled
  have absentInBatch : (ofList staged.created.reverse).lookup key = none ↔ key ∉ staged.batchCreated := by
    rw [lookup_ofList_eq_none, map_reverse, mem_reverse, inBatch]
  simp only [WriteBackChainstate.stageSpend, ensure_of (show key ∉ staged.batchSpent ∧
    ¬ layer.knownSpent key from ⟨unseen, unknown⟩)]
  by_cases cancels : key ∈ staged.batchCreated ∨ key ∈ layer.pending.created
  · have created : (layer.stagedChange staged).created.lookup key ≠ none := by
      rw [lookup, Ne, Option.or_eq_none_iff, absentInBatch, ← not_mem_iff]
      tauto
    rw [if_pos cancels]
    exact ⟨_, rfl, stages.cancel unspent created (cancels.imp_left inBatch.mp), rfl, rfl, rfl⟩
  have absent : (layer.stagedChange staged).created.lookup key = none := by
    rw [lookup, Option.or_eq_none_iff, absentInBatch, ← not_mem_iff]
    exact not_or.mp cancels
  rw [if_neg cancels]
  exact ⟨_, rfl, stages.spendBelow unspent absent present, rfl, rfl, rfl⟩

theorem stageCreate {coin : CoinEntry}
    (unseen : coin.1 ∉ staged.created.map fst) (unknown : ¬ layer.knownCreated coin.1)
    (absent : coins coin.1 = none) : layer.stageCreate staged coin = .ok (staged.create coin) ∧
      Stages layer base (update coins coin.1 (some coin.2)) (staged.create coin) := by
  have notBuffered : coin.1 ∉ layer.pending.created := fun member => unknown (.inl member)
  have notCancelled : coin.1 ∉ staged.cancelled := fun member =>
    (stages.cancelled_seen _ member).2.elim unseen notBuffered
  have notCreated : coin.1 ∉ staged.batchCreated := fun member =>
    unseen ((stages.batchCreated_iff _).mp member).1
  have agrees : (layer.stagedChange staged).AgreesOff (layer.stagedChange (staged.create coin)) coin.1 := by
    refine ⟨fun other distinct => ?_, fun other _ => Iff.rfl⟩
    simp [lookup_stagedChange, Staged.create, distinct]
  have before : (layer.stagedChange staged).created.lookup coin.1 = none := by
    rw [lookup_stagedChange, if_neg notCancelled, not_mem_iff.mp notBuffered, Option.or_none,
      lookup_ofList_eq_none, map_reverse, mem_reverse]
    exact unseen
  have created : (layer.stagedChange (staged.create coin)).created.lookup coin.1 = some coin.2 := by
    simp [lookup_stagedChange, Staged.create, notCancelled]
  constructor
  · simp only [WriteBackChainstate.stageCreate, ensure_of (show coin.1 ∉ staged.batchCreated ∧
      ¬ layer.knownCreated coin.1 from ⟨notCreated, unknown⟩)]
    rfl
  refine ⟨?_, fun key member => ?_, fun key => ?_, stages.spent_seen, fun key member => ?_,
    agrees.fits stages.fits (stages.fits.spent_present _) (fun _ unspent => ?_), ?_⟩
  · simp only [Staged.create, map_append]
    exact nodup_append.mpr ⟨stages.nodup, nodup_singleton _, fun key earlier other single =>
      fun same => unseen (mem_singleton.mp single ▸ same ▸ earlier)⟩
  · simp only [Staged.create, map_append, map_cons, map_nil, mem_append, mem_singleton] at member
    rcases member with earlier | rfl
    · exact stages.fresh key earlier
    · exact notBuffered
  · simp only [Staged.create, Finset.mem_insert, stages.batchCreated_iff, map_append,
      map_cons, map_nil, mem_append, mem_singleton]
    constructor
    · rintro (rfl | earlier)
      · exact ⟨.inr rfl, notCancelled⟩
      · exact ⟨.inl earlier.1, earlier.2⟩
    · rintro ⟨earlier | rfl, kept⟩
      · exact .inr ⟨earlier, kept⟩
      · exact .inl rfl
  · obtain ⟨seen, known⟩ := stages.cancelled_seen key member
    refine ⟨seen, known.imp_left fun earlier => ?_⟩
    simp only [Staged.create, map_append, mem_append]
    exact .inl earlier
  · rw [← onto_of_untouched before unspent base]
    exact congrFun stages.shown _ |>.trans absent
  · rw [agrees.onto_eq, stages.shown, onto_of_created created]

theorem stageSpends {keys : List OutPointKey} (nodup : keys.Nodup) (unseen : ∀ key ∈ keys, key ∉ staged.batchSpent)
    (unknown : ∀ key ∈ keys, ¬ layer.knownSpent key) (present : ∀ key ∈ keys, coins key ≠ none) :
    ∃ next, foldOutcome layer.stageSpend staged keys = .ok next ∧
      Stages layer base (fun key => if key ∈ keys then none else coins key) next ∧
      next.batchSpent = staged.batchSpent ∪ keys.toFinset ∧ next.created = staged.created ∧ next.tip = staged.tip := by
  induction keys generalizing staged coins with
  | nil => exact ⟨staged, rfl, by simpa using stages, by simp, rfl, rfl⟩
  | cons key rest ih =>
    obtain ⟨notLater, restNodup⟩ := nodup_cons.mp nodup
    obtain ⟨_, staged₁, stages₁, seen₁, created₁, tip₁⟩ := stages.stageSpend
      (unseen key mem_cons_self) (unknown key mem_cons_self)
      (present key mem_cons_self)
    have apart : ∀ other ∈ rest, other ≠ key := fun other later same => notLater (same ▸ later)
    obtain ⟨next, staged₂, stages₂, seen₂, created₂, tip₂⟩ := ih stages₁ restNodup (fun other later => by
        rw [seen₁, Finset.mem_insert, not_or]
        exact ⟨apart other later, unseen other (.tail _ later)⟩)
      (fun other later => unknown other (.tail _ later))
      (fun other later => by
        rw [update_of_ne (apart other later)]
        exact present other (.tail _ later))
    refine ⟨next, ?_, ?_, ?_, created₂.trans created₁, tip₂.trans tip₁⟩
    · rw [foldOutcome_cons, staged₁, ok_bind, staged₂]
    · convert stages₂ using 1
      funext other
      by_cases same : other = key <;> simp [same]
    · rw [seen₂, seen₁, toFinset_cons, Finset.insert_union, Finset.union_insert]

theorem stageCreates {created : List CoinEntry} (nodup : (created.map fst).Nodup)
    (unseen : ∀ key ∈ created.map fst, key ∉ staged.created.map fst)
    (unknown : ∀ key ∈ created.map fst, ¬ layer.knownCreated key) (absent : ∀ key ∈ created.map fst, coins key = none) :
    ∃ next, foldOutcome layer.stageCreate staged created = .ok next ∧
      Stages layer base (fun key => ((ofList created).lookup key).or (coins key)) next ∧
      next.created = staged.created ++ created ∧ next.batchSpent = staged.batchSpent ∧ next.tip = staged.tip := by
  induction created generalizing staged coins with
  | nil => exact ⟨staged, rfl, by simpa using stages, by simp, rfl, rfl⟩
  | cons coin rest ih =>
    obtain ⟨notLater, restNodup⟩ := nodup_cons.mp nodup
    obtain ⟨staged₁, stages₁⟩ := stages.stageCreate (unseen coin.1 mem_cons_self)
      (unknown coin.1 mem_cons_self) (absent coin.1 mem_cons_self)
    have apart : ∀ key ∈ rest.map fst, key ≠ coin.1 := fun key later same =>
      notLater (same ▸ later)
    obtain ⟨next, staged₂, stages₂, created₂, seen₂, tip₂⟩ := ih stages₁ restNodup (fun key later => by
        simp only [Staged.create, map_append, map_cons, map_nil, mem_append, mem_singleton, not_or]
        exact ⟨unseen key (.tail _ later), apart key later⟩)
      (fun key later => unknown key (.tail _ later))
      (fun key later => by
        rw [update_of_ne (apart key later)]
        exact absent key (.tail _ later))
    refine ⟨next, ?_, ?_, by rw [created₂]; simp [Staged.create], seen₂, tip₂⟩
    · rw [foldOutcome_cons, staged₁, ok_bind, staged₂]
    convert stages₂ using 1
    funext key
    by_cases same : key = coin.1
    · simp [same, lookup_ofList_eq_none.mpr notLater]
    · simp [same]

end Stages

namespace Stages

variable {base : CoinMap} {staged : Staged} {ledger : Ledger}

variable (stages : Stages layer base ledger.coins staged) (atTip : staged.tip = ledger.tip)
include stages atTip

theorem stageTransition {transition : ConnectTransition} (accepts : ledger.Accepts transition)
    (spentUnseen : ∀ key ∈ transition.spent, key ∉ staged.batchSpent)
    (spentUnknown : ∀ key ∈ transition.spent, ¬ layer.knownSpent key)
    (createdUnseen : ∀ key ∈ transition.created.map fst, key ∉ staged.created.map fst)
    (createdUnknown : ∀ key ∈ transition.created.map fst, ¬ layer.knownCreated key) :
    ∃ next, layer.stageTransition staged transition = .ok next ∧
      Stages layer base (ledger.connect transition).coins next ∧
      next.tip = transition.next ∧ next.batchSpent = staged.batchSpent ∪ transition.spent.toFinset ∧
      next.created = staged.created ++ transition.created := by
  obtain ⟨_, staged₁, stages₁, seen₁, created₁, _⟩ := stages.stageSpends
    accepts.spent_nodup spentUnseen spentUnknown fun key member =>
      accepts.fits.spent_present key (mem_toFinset.mpr member)
  obtain ⟨next, staged₂, stages₂, created₂, seen₂, _⟩ := stages₁.stageCreates
    accepts.created_nodup (by rwa [created₁]) createdUnknown (fun key member => by
      split
      · rfl
      · next unspent =>
        exact accepts.fits.created_fresh key (fun absent => lookup_ofList_eq_none.mp absent member)
          fun spent => unspent (mem_toFinset.mp spent))
  have precedes : staged.tip.Precedes transition := atTip ▸ accepts.precedes
  refine ⟨{ next with tip := transition.next }, ?_, ?_, rfl, ?_, ?_⟩
  · simp only [WriteBackChainstate.stageTransition, ensure_of precedes, ok_bind, staged₁, staged₂]
    rfl
  · have shown : (ledger.connect transition).coins = fun key =>
        ((ofList transition.created).lookup key).or
          (if key ∈ transition.spent then none else ledger.coins key) := by
      funext key
      simp only [Ledger.connect, onto, change, mem_toFinset]
      cases (ofList transition.created).lookup key <;> rfl
    rw [shown]
    exact ⟨stages₂.nodup, stages₂.fresh, stages₂.batchCreated_iff, stages₂.spent_seen,
      stages₂.cancelled_seen, stages₂.fits, stages₂.shown⟩
  · exact seen₂.trans seen₁
  · exact created₂.trans (by rw [created₁])

theorem stageLoop {transitions : Transitions}
    (accepts : ledger.AcceptsAll transitions) (once : layer.TouchesOnce transitions)
    (spentUnseen : ∀ key ∈ transitions.flatMap spent, key ∉ staged.batchSpent)
    (createdUnseen : ∀ key ∈ transitions.flatMap fun transition =>
      transition.created.map fst, key ∉ staged.created.map fst) :
    ∃ next, foldOutcome layer.stageTransition staged transitions = .ok next ∧
      Stages layer base (ledger.connectAll transitions).coins next ∧
      next.tip = (ledger.connectAll transitions).tip := by
  induction transitions generalizing staged ledger with
  | nil => exact ⟨staged, rfl, stages, atTip⟩
  | cons _ _ ih =>
    obtain ⟨spentNodup, spentUnknown, createdNodup, createdUnknown⟩ := once
    simp only [flatMap_cons, nodup_append] at spentNodup createdNodup
    simp only [flatMap_cons, forall_mem_append] at spentUnknown createdUnknown
    simp only [flatMap_cons, forall_mem_append] at spentUnseen createdUnseen
    obtain ⟨_, staged₁, stages₁, tip₁, seen₁, created₁⟩ := stages.stageTransition atTip
      accepts.1 spentUnseen.1 spentUnknown.1 createdUnseen.1 createdUnknown.1
    obtain ⟨next, staged₂, stages₂, tip₂⟩ := ih stages₁ tip₁ accepts.2
      ⟨spentNodup.2.1, spentUnknown.2, createdNodup.2.1, createdUnknown.2⟩
      (fun key later => by
        rw [seen₁, Finset.mem_union, mem_toFinset, not_or]
        exact ⟨spentUnseen.2 key later, fun now => spentNodup.2.2 key now key later rfl⟩)
      (fun key later => by
        rw [created₁, map_append, mem_append, not_or]
        exact ⟨createdUnseen.2 key later, fun now => createdNodup.2.2 key now key later rfl⟩)
    refine ⟨next, ?_, stages₂, tip₂⟩
    rw [foldOutcome_cons, staged₁, ok_bind, staged₂]

end Stages

theorem stageBatch_spec {store : ExecutionChainStore σ} {base : CoinMap}
    {ledger : Ledger} {transitions : Transitions} (fits : layer.pending.change.Fits base)
    (shown : layer.pending.change.onto base = ledger.coins) (atTip : layer.currentTip store = ledger.tip)
    (accepts : ledger.AcceptsAll transitions) (once : layer.TouchesOnce transitions) :
    ∃ staged, layer.stageBatch store transitions = .ok staged ∧ staged.tip = (ledger.connectAll transitions).tip ∧
      (merge layer.pending transitions staged).change.Fits base ∧
      (merge layer.pending transitions staged).change.onto base = (ledger.connectAll transitions).coins := by
  let initial : Staged :=
    { tip := layer.currentTip store, created := [], spent := [], cancelled := [],
      batchCreated := ∅, batchSpent := ∅ }
  have unchanged : layer.stagedChange initial = layer.pending.change := by
    simp [stagedChange, initial, mergeCreated, eraseAll, Pending.change]
  have stages : Stages layer base ledger.coins initial := by
    refine ⟨by simp [initial], by simp [initial], by simp [initial], by simp [initial],
      by simp [initial], ?_, ?_⟩ <;> rw [unchanged]
    · exact fits
    · exact shown
  obtain ⟨staged, completed, final, tip⟩ := stages.stageLoop atTip accepts once
    (by simp [initial]) (by simp [initial])
  exact ⟨staged, completed, tip, final.fits, final.shown⟩

end WriteBackChainstate

end Rbtc.WriteBack
