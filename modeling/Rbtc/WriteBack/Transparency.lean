import Rbtc.Chainstate.ChainStore
import Rbtc.WriteBack.FlushProperties

/-! An engine for the write-back layer: the logical content of the snapshot overlay store. The layer's
population counts over it, and interleavings of its critical sections and of returning background threads. -/

namespace Rbtc.WriteBack

open Foundation Bitcoin Chainstate Edit

structure OverlayEngine where
  tip : ExecutionTip
  coins : CoinTable
  undos : Table BlockHash (List UtxoUndo)

namespace OverlayEngine

variable (engine : OverlayEngine)

def advance (transition : ConnectTransition) :
    Except ChainStoreError OverlayEngine := do
  ensure (engine.tip.Precedes transition) (.execution (.nonSequential engine.tip.height engine.tip.hash))
  return { engine with
    tip := transition.next
    undos := engine.undos.insert transition.next.hash transition.transactionUndos }

def connectMutation (spent : List OutPointKey)
    (created : List CoinEntry) : Except ChainStoreError OverlayEngine := do
  let (coins, _) ← (applyWithUndo engine.coins spent created).mapError .utxo
  return { engine with coins }

def commitConnectFolded (transitions : Transitions) (spent : List OutPointKey) (created : List CoinEntry) :
    Except ChainStoreError OverlayEngine := do
  let advanced ← foldOutcome advance engine transitions
  advanced.connectMutation spent created

def commitConnect (transition : ConnectTransition) :
    Except ChainStoreError OverlayEngine := do
  let advanced ← engine.advance transition
  advanced.connectMutation transition.spent transition.created

def store : ExecutionChainStore OverlayEngine where
  get engine := engine.coins.lookup
  getMany engine keys := keys.map fun key => (key, engine.coins.lookup key)
  executionTip engine := engine.tip
  blockUndo engine := engine.undos.lookup
  commitConnect := commitConnect
  commitConnectFolded := commitConnectFolded

variable {engine : OverlayEngine}
  {next : OverlayEngine} {transition : ConnectTransition} {transitions : Transitions}

theorem advance_eq_ok : engine.advance transition = .ok next ↔ engine.tip.Precedes transition ∧ next = { engine with
        tip := transition.next
        undos := engine.undos.insert transition.next.hash transition.transactionUndos } := by
  simp only [advance, bind_eq_ok, ensure_eq_ok, pure_eq_ok]
  tauto

theorem connectMutation_eq_ok {engine next : OverlayEngine} {spent : List OutPointKey}
    {created : List CoinEntry} :
    engine.connectMutation spent created = .ok next ↔ Applicable engine.coins.lookup spent created ∧
      next = { engine with coins := (engine.coins.eraseAll spent).insertAll created } := by
  simp only [connectMutation, bind_eq_ok, mapError_eq_ok, applyWithUndo_eq_ok, pure_eq_ok]
  constructor
  · rintro ⟨_, ⟨applicable, rfl⟩, rfl⟩
    exact ⟨applicable, rfl⟩
  · rintro ⟨applicable, rfl⟩
    exact ⟨_, ⟨applicable, rfl⟩, rfl⟩

theorem foldOutcome_advance (advanced : foldOutcome advance engine transitions = .ok next) :
    next.tip = engine.tip.after transitions ∧ next.coins = engine.coins ∧ ∀ hash, next.undos.lookup hash =
        (WriteBackChainstate.undoIn transitions hash).or (engine.undos.lookup hash) := by
  induction transitions generalizing engine with
  | nil =>
    cases advanced
    exact ⟨rfl, rfl, fun _ => rfl⟩
  | cons transition rest ih =>
    rw [foldOutcome_cons, bind_eq_ok] at advanced
    obtain ⟨_, first, remaining⟩ := advanced
    obtain ⟨-, rfl⟩ := advance_eq_ok.mp first
    obtain ⟨tip, coins, undos⟩ := ih remaining
    refine ⟨tip, coins, fun hash => ?_⟩
    rw [undos, Table.lookup_insert]
    simp only [WriteBackChainstate.undoIn, List.reverse_cons, List.find?_append]
    cases rest.reverse.find? fun transition => decide (transition.next.hash = hash) with
    | some _ => rfl
    | none =>
      by_cases same : hash = transition.next.hash
      · simp [same]
      · simp [same, Ne.symm same]

theorem foldOutcome_advance_ok (contiguous : engine.tip.Contiguous transitions) :
    ∃ next, foldOutcome advance engine transitions = .ok next := by
  induction transitions generalizing engine with
  | nil => exact ⟨engine, rfl⟩
  | cons transition rest ih =>
    obtain ⟨next, remaining⟩ := @ih ⟨transition.next, _, _⟩ contiguous.2
    exact ⟨next, by rw [foldOutcome_cons, advance_eq_ok.mpr ⟨contiguous.1, rfl⟩, ok_bind, remaining]⟩

theorem lists_of_accepts (accepts : (ledgerOf store engine).Accepts transition) :
    NetChange.Lists ⟨transition.spent.toFinset, Table.ofList transition.created⟩ transition.spent transition.created :=
  ⟨accepts.spent_nodup, rfl, accepts.created_nodup, rfl⟩

theorem atomicStore : AtomicStore store where
  getMany_eq _ _ := rfl
  connects engine transition accepts := by
    have lists := lists_of_accepts accepts
    have applicable := lists.applicable_iff.mpr accepts.fits
    have advanced := advance_eq_ok.mpr ⟨accepts.precedes, rfl⟩
    refine ⟨_, bind_eq_ok.mpr ⟨_, advanced, connectMutation_eq_ok.mpr ⟨applicable, rfl⟩⟩, ?_⟩
    ext : 1
    · rfl
    · exact (lookup_applied engine.coins transition.spent accepts.created_nodup).trans (lists.applyAll_eq _)
  folds engine next transitions change _ committed := by
    obtain ⟨advanced, moved, applied⟩ := bind_eq_ok.mp committed
    obtain ⟨tip, coins, undos⟩ := foldOutcome_advance moved
    obtain ⟨applicable, rfl⟩ := connectMutation_eq_ok.mp applied
    refine ⟨tip, ?_, undos⟩
    rw [show store.get engine = advanced.coins.lookup from congrArg Table.lookup coins.symm]
    exact (lookup_applied advanced.coins _ applicable.created_nodup).trans
      ((NetChange.lists_sorted change).applyAll_eq _)
  accepts engine transitions change _ contiguous fits := by
    obtain ⟨advanced, moved⟩ := foldOutcome_advance_ok contiguous
    have coins := (foldOutcome_advance moved).2.1
    refine ⟨_, bind_eq_ok.mpr ⟨advanced, moved, connectMutation_eq_ok.mpr ⟨?_, rfl⟩⟩⟩
    rw [coins]
    exact (NetChange.lists_sorted change).applicable_iff.mpr fits

/-! A chain of blocks whose hashes are their heights, for runs on fixed inputs. -/

def sampleKey (number : Nat) : OutPointKey := ⟨⟨number⟩, 0⟩

def sampleCoin (valueSats : Nat) : Utxo :=
  { valueSats
    height := 1
    isCoinbase := false
    lastTouched := 0
    creationMtp := 0
    scriptPubkey := [0x51] }

def sampleTransition (height : Nat) (spent : List OutPointKey)
    (created : List CoinEntry) : ConnectTransition :=
  { expectedParent := ⟨height - 1⟩
    next := ⟨height, ⟨height⟩⟩
    spent
    created
    transactionUndos := [⟨[], created.map Prod.fst⟩] }

def sample : OverlayEngine :=
  { tip := ⟨0, ⟨0⟩⟩
    coins := Table.singleton (sampleKey 1) (sampleCoin 5)
    undos := ∅ }

def sampleLimits : WriteBackLimits := ⟨8, 2 ^ 64 - 1⟩

end OverlayEngine

open NetChange

structure TierStats where
  hot : Nat
  cold : Nat
  deriving DecidableEq, Repr

namespace WriteBackChainstate

variable {σ : Type} {store : ExecutionChainStore σ} {stats : σ → TierStats} {layer : WriteBackChainstate σ}

def tierStats (stats : σ → TierStats) (layer : WriteBackChainstate σ) : TierStats :=
  let inner := stats layer.inner
  let accepting := saturate 64 (inner.hot + saturate 64 layer.pending.created.keys.card)
  match layer.inFlightState with
  | some state => { inner with hot := saturate 64 (accepting + saturate 64 state.created.keys.card) }
  | none => { inner with hot := accepting }

theorem tierStats_eq (fits : (stats layer.inner).hot + layer.pending.created.keys.card +
      layer.flightChange.created.keys.card < 2 ^ 64) : (layer.tierStats stats).hot + (layer.tierStats stats).cold =
      layer.pending.created.keys.card + (layer.flightChange.created.keys.card +
        ((stats layer.inner).hot + (stats layer.inner).cold)) := by
  unfold tierStats inFlightState
  unfold flightChange at fits ⊢
  cases inSlot : layer.inFlight with
  | none =>
    simp only [Option.map_none, saturate, show (∅ : NetChange OutPointKey Utxo).created.keys.card = 0 from rfl]
    omega
  | some _ =>
    simp only [inSlot, Committed.change] at fits
    simp only [Option.map_some, Committed.change, saturate]
    omega

/-- Over an engine that counts its coins the layer counts no fewer coins than it shows, and as many
exactly when neither buffer creates or spends a coin that is there without it. -/
theorem tierStats_exact_iff (layer : WriteBackChainstate σ) {held shown : Finset OutPointKey}
    (holds : ∀ key, key ∈ held ↔ store.get layer.inner key ≠ none)
    (counted : (stats layer.inner).hot + (stats layer.inner).cold = held.card)
    (shows : ∀ key, key ∈ shown ↔ layer.get store key ≠ none)
    (fits : (stats layer.inner).hot + layer.pending.created.keys.card + layer.flightChange.created.keys.card < 2 ^ 64) :
    shown.card ≤ (layer.tierStats stats).hot + (layer.tierStats stats).cold ∧
      ((layer.tierStats stats).hot + (layer.tierStats stats).cold = shown.card ↔
        layer.flightChange.Spares (store.get layer.inner) ∧ layer.pending.change.Spares (layer.baseCoins store)) := by
  have below : ∀ key, key ∈ layer.flightChange.shownKeys held ↔ layer.baseCoins store key ≠ none :=
    fun _ => mem_shownKeys holds
  have isShown : shown = layer.pending.change.shownKeys (layer.flightChange.shownKeys held) := by
    ext key
    rw [shows, get_eq_onto, mem_shownKeys below]
  obtain ⟨_, flightAll⟩ := card_shownKeys holds layer.flightChange
  obtain ⟨pendingAtMost, pendingAll⟩ := card_shownKeys below layer.pending.change
  rw [tierStats_eq fits, isShown, ← flightAll, ← pendingAll]
  have created : layer.pending.change.created = layer.pending.created := rfl
  rw [created] at pendingAtMost ⊢
  omega

end WriteBackChainstate

open OverlayEngine WriteBackChainstate

def countCoins (engine : OverlayEngine) : TierStats := ⟨engine.coins.keys.card, 0⟩

theorem tierStats_exact_for_new_coin :
    let layer := ((new sample sampleLimits).buffer store [sampleTransition 1 [] [(sampleKey 2, sampleCoin 4)]]
      true none).1
    (layer.tierStats countCoins).hot + (layer.tierStats countCoins).cold = 2 := by
  intro layer
  have created : layer.pending.change.created = .singleton (sampleKey 2) (sampleCoin 4) := by decide
  have spent : layer.pending.change.spent = ∅ := by decide
  have inner : ∀ key, store.get layer.inner key = if key = sampleKey 1 then some (sampleCoin 5) else none :=
    fun key => Table.lookup_singleton (sampleKey 1) key _
  have below : layer.baseCoins store = store.get layer.inner := onto_empty _
  have holds : ∀ key, key ∈ ({sampleKey 1} : Finset OutPointKey) ↔ store.get layer.inner key ≠ none := by
    simp [inner]
  have shows : ∀ key, key ∈ ({sampleKey 2, sampleKey 1} : Finset OutPointKey) ↔ layer.get store key ≠ none := by
    intro key
    rw [get_eq_onto, onto, created, spent, below, inner]
    by_cases fresh : key = sampleKey 2 <;> simp [fresh]
  refine (tierStats_exact_iff layer holds rfl shows (by decide)).2.mpr ⟨fun key _ => ?_, fun key present => ?_⟩
  · exact ⟨Finset.notMem_empty key, Table.lookup_empty key⟩
  · rw [below, ← holds, Finset.mem_singleton] at present
    rw [present]
    decide

/-- A coin of the engine spent by an accepted batch is still counted, and no coin is shown. -/
theorem spent_coin_counted :
    let layer := (new sample sampleLimits).buffer store [sampleTransition 1 [sampleKey 1] []] true none
    layer.2 = .ok () ∧ (∀ key, layer.1.get store key = none) ∧ layer.1.tierStats countCoins = ⟨1, 0⟩ := by
  refine ⟨by decide, fun key => ?_, by decide⟩
  by_cases same : key = sampleKey 1
  · rw [same]
    decide
  · have untouched : key ∉ ({sampleKey 1} : Finset OutPointKey) := by simpa using same
    rw [get_eq_onto, onto_of_untouched (Table.lookup_empty key) untouched]
    exact (Table.lookup_singleton (sampleKey 1) key _).trans (if_neg same)

open List

/-- A critical section of a caller, or a thread that returns, with the fault the step carries. -/
inductive Step where
  | startFlush (spawned : Bool) (fault : Option ChainStoreError)
  | wait (fault : Option ChainStoreError)
  | takeLastFlush
  | thread (handle : Nat) (fault : Option ChainStoreError)
  | buffer (transitions : Transitions)

namespace Step

def IsBatch : Step → Prop
  | .buffer _ => True
  | _ => False

def Mutates : Step → Prop
  | .buffer _ | .startFlush _ _ | .wait _ => True
  | _ => False

end Step

namespace WriteBackChainstate

variable {σ : Type}

section
variable (store : ExecutionChainStore σ) (layer : WriteBackChainstate σ)

def perform : Step → WriteBackChainstate σ × Outcome ChainStoreError Unit
  | .startFlush spawned fault =>
    let (next, outcome) := layer.startFlush store spawned fault
    (next, outcome.map fun _ => ())
  | .wait fault =>
    let (next, outcome) := layer.waitInFlightLocked store fault
    (next, outcome.map fun _ => ())
  | .takeLastFlush => (layer.takeLastFlush.1, .ok ())
  | .thread handle fault => (layer.runThread store handle fault, .ok ())
  | .buffer transitions =>
    let (next, outcome) := layer.bufferSection store transitions
    (next, outcome.map fun _ => ())

def run (steps : List Step) : WriteBackChainstate σ :=
  steps.foldl (fun current step => (current.perform store step).1) layer

def acceptedBy : Step → Transitions
  | .buffer transitions =>
    match (layer.bufferSection store transitions).2 with
    | .ok _ => transitions.map ({ · with created := [] })
    | .error _ => []
  | _ => []

def buffered (layer : WriteBackChainstate σ) : List Step → Transitions
  | [] => []
  | step :: rest =>
    layer.acceptedBy store step ++ buffered (layer.perform store step).1 rest

/-- A batch is not empty and does not arrive while a failed commit has yet to be joined. -/
def Prompt : Step → Prop
  | .buffer transitions =>
    transitions ≠ [] ∧ (layer.CommitFailed → layer.failed ≠ none)
  | _ => True

def AllPrompt (layer : WriteBackChainstate σ) : List Step → Prop
  | [] => True
  | step :: rest => layer.Prompt step ∧ AllPrompt (layer.perform store step).1 rest

end

variable {store : ExecutionChainStore σ} {layer : WriteBackChainstate σ}

theorem consistent_new (inner : σ) (limits : WriteBackLimits) : Consistent store (new inner limits) := by
  refine ⟨fun _ inSlot => (by cases inSlot), ?_, ?_, ?_, fun _ inSlot => (by cases inSlot), rfl⟩
  · rintro handle ⟨_, _, _, running⟩
    cases running
  · rintro (⟨handle, _, found⟩ | marked)
    · cases found
    · exact absurd rfl marked
  · intro handle found
    cases found

variable {transitions : Transitions}

theorem stageBatch_tip {staged : Staged} (completed : layer.stageBatch store transitions = .ok staged) :
    staged.tip = (layer.currentTip store).after transitions := by
  have loop : ∀ (transitions : Transitions) (first final : Staged),
      foldOutcome layer.stageTransition first transitions = .ok final → final.tip = first.tip.after transitions := by
    intro transitions
    induction transitions with
    | nil =>
      intro first final completed
      cases completed
      rfl
    | cons _ _ ih =>
      intro first final completed
      simp only [foldOutcome_cons, stageTransition, bind_eq_ok, pure_eq_ok] at completed
      obtain ⟨_, ⟨_, -, _, -, _, -, rfl⟩, remaining⟩ := completed
      exact ih _ final remaining
  exact loop transitions _ staged completed

section
variable (store layer transitions)

/-- `buffer` ignores an empty batch, refuses and changes nothing, or merges the batch. -/
inductive SectionStep : WriteBackChainstate σ × Outcome ChainStoreError Bool → Prop
  | ignored (isEmpty : transitions = []) : SectionStep (layer, .ok false)
  | refused (nonempty : transitions ≠ []) (fault : Fault ChainStoreError) (stopped :
      (layer.checkFailed >>= fun _ => layer.stageBatch store transitions) = .error fault) :
      SectionStep (layer, .error fault)
  | merged (nonempty : transitions ≠ []) (healthy : layer.failed = none) (staged : Staged)
      (completed : layer.stageBatch store transitions = .ok staged) (flushes : Bool) :
      SectionStep ({ layer with pending := merge layer.pending transitions staged }, .ok flushes)

theorem bufferSection_step : SectionStep store layer transitions (layer.bufferSection store transitions) := by
  unfold bufferSection
  split
  · next isEmpty => exact .ignored isEmpty
  rename_i nonempty
  split
  · next fault stopped => exact .refused nonempty fault stopped
  · next staged completed =>
    obtain ⟨_, healthy, staging⟩ := bind_eq_ok.mp completed
    exact .merged nonempty (ensure_eq_ok.mp healthy) staged staging _

end

theorem bufferSection_spec (consistent : Consistent store layer) (transitions : Transitions) :
    Consistent store (layer.bufferSection store transitions).1 ∧ (layer.bufferSection store transitions).1.history =
        layer.history ++ layer.acceptedBy store (.buffer transitions) := by
  unfold acceptedBy
  dsimp only
  have step := bufferSection_step store layer transitions
  generalize layer.bufferSection store transitions = result at step
  cases step with
  | ignored isEmpty => simp [isEmpty, consistent]
  | refused => exact ⟨consistent, (append_nil _).symm⟩
  | merged nonempty _ _ completed _ =>
    refine ⟨⟨consistent.flight, consistent.alone, consistent.failure, consistent.refusing,
      consistent.flight_tip, ?_⟩, ?_⟩
    · rcases eq_nil_or_concat transitions with rfl | ⟨_, _, rfl⟩
      · exact absurd rfl nonempty
      · simp [merge, stageBatch_tip completed, ExecutionTip.after]
    · simp [WriteBackChainstate.history, unlanded, merge]

theorem bufferSection_refuses (store : ExecutionChainStore σ) (nonempty : transitions ≠ [])
    (failed : layer.failed ≠ none) :
    ∃ error, layer.bufferSection store transitions = (layer, .error (.refused error)) := by
  simp [bufferSection, if_neg nonempty, checkFailed, ensure, if_neg failed]

section
variable (atomic : AtomicStore store)
include atomic

variable (consistent : Consistent store layer)
include consistent

theorem perform_spec (step : Step) :
    Consistent store (layer.perform store step).1 ∧ (layer.perform store step).1.history =
        layer.history ++ layer.acceptedBy store step ∧
      (¬ step.IsBatch → Transparent store layer (layer.perform store step).1) := by
  cases step with
  | startFlush spawned fault =>
    obtain ⟨next, transparent, -⟩ := startFlush_spec atomic consistent spawned fault
    exact ⟨next, transparent.history.trans (append_nil _).symm, fun _ => transparent⟩
  | wait fault =>
    obtain ⟨next, same, -⟩ := waitInFlightLocked_spec atomic consistent fault
    exact ⟨next, same.transparent.history.trans (append_nil _).symm, fun _ => same.transparent⟩
  | takeLastFlush =>
    obtain ⟨next, same⟩ := takeLastFlush_spec consistent
    exact ⟨next, same.transparent.history.trans (append_nil _).symm, fun _ => same.transparent⟩
  | thread handle fault =>
    obtain ⟨next, same⟩ := (runThread_step store layer handle fault).sameBelow atomic consistent
    exact ⟨next, same.transparent.history.trans (append_nil _).symm, fun _ => same.transparent⟩
  | buffer transitions =>
    obtain ⟨next, appended⟩ := bufferSection_spec consistent transitions
    exact ⟨next, appended, fun notBatch => absurd trivial notBatch⟩

theorem run_spec (steps : List Step) : Consistent store (layer.run store steps) ∧ (layer.run store steps).history =
        layer.history ++ layer.buffered store steps ∧ ((∀ step ∈ steps, ¬ step.IsBatch) →
        Transparent store layer (layer.run store steps)) := by
  induction steps generalizing layer with
  | nil => exact ⟨consistent, (append_nil _).symm, fun _ => .refl _⟩
  | cons step _ ih =>
    obtain ⟨next, appended, transparent⟩ := perform_spec atomic consistent step
    obtain ⟨final, appendedRest, transparentRest⟩ := ih next
    refine ⟨final, ?_, fun noBatch => ?_⟩
    · rw [buffered, ← append_assoc, ← appended]
      exact appendedRest
    · exact (transparent (noBatch step mem_cons_self)).trans
        (transparentRest fun other later => noBatch other (.tail _ later))

theorem perform_refuses (failed : layer.CommitFailed) {step : Step} (prompt : layer.Prompt step) :
    Transparent store layer (layer.perform store step).1 ∧
      (step.Mutates → ∃ error, (layer.perform store step).2 = .error (.refused error)) := by
  cases step with
  | startFlush spawned fault =>
    obtain ⟨-, transparent, refuses⟩ := startFlush_spec atomic consistent spawned fault
    obtain ⟨error, refused⟩ := refuses failed
    exact ⟨transparent, fun _ => ⟨error, by simp [perform, refused, Except.map]⟩⟩
  | wait fault =>
    obtain ⟨-, same, -, refuses⟩ := waitInFlightLocked_spec atomic consistent fault
    obtain ⟨error, refused⟩ := refuses failed
    exact ⟨same.transparent, fun _ => ⟨error, by simp [perform, refused, Except.map]⟩⟩
  | takeLastFlush =>
    exact ⟨(takeLastFlush_spec consistent).2.transparent, fun mutates => mutates.elim⟩
  | thread handle fault =>
    exact ⟨((runThread_step store layer handle fault).sameBelow atomic consistent).2.transparent,
      fun mutates => mutates.elim⟩
  | buffer _ =>
    obtain ⟨error, refused⟩ := bufferSection_refuses store prompt.1 (prompt.2 failed)
    exact ⟨by simp only [perform, refused]; exact .refl _, fun _ => ⟨error, by simp [perform, refused, Except.map]⟩⟩

theorem run_transparent_after_failure (failed : layer.CommitFailed)
    {steps : List Step} (prompt : layer.AllPrompt store steps) : Transparent store layer (layer.run store steps) := by
  induction steps generalizing layer with
  | nil => exact .refl _
  | cons step _ ih =>
    obtain ⟨transparent, -⟩ := perform_refuses atomic consistent failed prompt.1
    exact transparent.trans (ih (perform_spec atomic consistent step).1 (transparent.failed failed) prompt.2)

end

structure SameReads (store : ExecutionChainStore σ) (before after : WriteBackChainstate σ) : Prop where
  get : ∀ key, after.get store key = before.get store key
  getMany : ∀ keys, after.getMany store keys = before.getMany store keys
  executionTip : after.executionTip store = before.executionTip store

theorem Transparent.sameReads (atomic : AtomicStore store) {before after : WriteBackChainstate σ}
    (transparent : Transparent store before after) : SameReads store before after where
  get := transparent.get
  getMany keys := by simp [getMany_eq atomic, transparent.get]
  executionTip := transparent.tip

end WriteBackChainstate

open WriteBackChainstate

/-- Flushing is transparent to coin and tip reads in every interleaving, and a joined failure
refuses every later mutation. -/
theorem flushing_transparent {σ : Type} (store : ExecutionChainStore σ) (atomic : AtomicStore store)
    (inner : σ) (limits : WriteBackLimits) (before : List Step) :
    let reached := (new inner limits).run store before
    (∀ left right, reached.Outstanding left → reached.Outstanding right → left = right) ∧
    reached.landed <+: (new inner limits).buffered store before ∧ (∀ steps, (∀ step ∈ steps, ¬ step.IsBatch) →
      SameReads store reached (reached.run store steps)) ∧
    (reached.CommitFailed → ∀ steps, reached.AllPrompt store steps → SameReads store reached (reached.run store steps) ∧
      ∀ step, (reached.run store steps).Prompt step → step.Mutates →
        ∃ error, ((reached.run store steps).perform store step).2 = .error (.refused error)) := by
  obtain ⟨consistent, history, -⟩ := run_spec atomic (consistent_new inner limits) before
  refine ⟨fun left right outstandingLeft outstandingRight => ?_, ?_, fun steps noBatch => ?_,
    fun failed steps prompt => ⟨?_, fun step promptStep mutates => ?_⟩⟩
  · obtain ⟨_, inSlot, rfl⟩ := consistent.alone left outstandingLeft
    obtain ⟨_, inSlot', rfl⟩ := consistent.alone right outstandingRight
    rw [Option.mem_unique inSlot inSlot']
  · rw [show (new inner limits).buffered store before = _ from history.symm, WriteBackChainstate.history, append_assoc]
    exact prefix_append _ _
  · exact ((run_spec atomic consistent steps).2.2 noBatch).sameReads atomic
  · exact (run_transparent_after_failure atomic consistent failed prompt).sameReads atomic
  · have transparent := run_transparent_after_failure atomic consistent failed prompt
    exact (perform_refuses atomic (run_spec atomic consistent steps).1
      (transparent.failed failed) promptStep).2 mutates

/-- A batch is buffered and handed to a background commit, which fails. -/
def sampleFailure : List Step :=
  [.buffer [sampleTransition 1 [] [(sampleKey 2, sampleCoin 6)]], .startFlush true none,
    .thread 0 (some (malformed "disk full"))]

/-- Once the failed commit has been harvested, the next batch is refused and its predecessor can
still be read. -/
theorem flushing_refuses_after_harvest :
    let reached := (new sample sampleLimits).run store sampleFailure
    let harvested := reached.run store [.takeLastFlush]
    reached.CommitFailed ∧ harvested.get store (sampleKey 2) = some (sampleCoin 6) ∧ ∃ error, (harvested.perform store
      (.buffer [sampleTransition 2 [sampleKey 2] []])).2 = .error (.refused error) := by
  have failed : ((new sample sampleLimits).run store sampleFailure).CommitFailed :=
    ⟨0, malformed "disk full", rfl⟩
  obtain ⟨-, -, -, after⟩ := flushing_transparent store atomicStore sample sampleLimits sampleFailure
  obtain ⟨same, refused⟩ := after failed [.takeLastFlush] ⟨trivial, trivial⟩
  exact ⟨failed, (same.get _).trans (by decide), refused _ ⟨by decide, fun _ => by decide⟩ trivial⟩

/-- A batch that arrives after the commit failed, and before anyone joined it, is accepted. -/
theorem batch_accepted_after_failed_commit :
    let reached := (new sample sampleLimits).run store sampleFailure
    reached.CommitFailed ∧ (reached.perform store (.buffer [sampleTransition 2 [sampleKey 2] []])).2 = .ok () :=
  ⟨⟨0, malformed "disk full", rfl⟩, by decide⟩

end Rbtc.WriteBack
