import Rbtc.Execution.Connect
import Rbtc.Foundation.Interrupted

/-! Recovery of a block transition over three separately durable stores (`block_execution.rs`): it ends in
the parent state or in the child state, wherever it was cut short. -/

namespace Rbtc.Execution

open Foundation Bitcoin Chainstate

inductive TransitionKind where
  | connect
  | disconnect
  deriving DecidableEq, Repr

structure PendingTransition where
  kind : TransitionKind
  parent : ExecutionTip
  next : ExecutionTip
  undo : UtxoUndo
  created : List CoinEntry
  deriving DecidableEq, Repr

@[ext] structure SplitStores where
  coins : CoinTable
  undos : Table BlockHash (List UtxoUndo)
  pending : Option PendingTransition
  tip : ExecutionTip
  validationTarget : Option ExecutionTip

def undoMutation (coins : CoinTable) (undo : UtxoUndo) :
    Except UtxoError CoinTable := do
  let _ ← undo.spent.mapM fun entry =>
    ensure (entry.1 ∈ undo.created ∨ coins.lookup entry.1 = none) (UtxoError.duplicate entry.1)
  return (coins.eraseAll undo.created).insertAll undo.spent

inductive StoreStep where
  | prepareTransition (pending : PendingTransition)
  | applyWithUndo (spent : List OutPointKey) (created : List CoinEntry)
  | undo (undo : UtxoUndo)
  | insertUndo (block : BlockHash) (transactionUndos : List UtxoUndo)
  | removeUndo (block : BlockHash)
  | advance (expectedParent : BlockHash) (next : ExecutionTip)
  | rewind (expectedCurrent parent : ExecutionTip)
  | clearTransition (expected : BlockHash)

namespace SplitStores

def perform (stores : SplitStores) : StoreStep → Except BlockExecutionError SplitStores
  | .prepareTransition pending => do
      ensure (stores.pending = none) (.undo .pendingExists)
      return { stores with pending := some pending }
  | .applyWithUndo spent created => do
      let (coins, _) ← (Chainstate.applyWithUndo stores.coins spent created).mapError .rollback
      return { stores with coins }
  | .undo undo => do
      let coins ← (undoMutation stores.coins undo).mapError .rollback
      return { stores with coins }
  | .insertUndo block transactionUndos => do
      let undos ← (Chainstate.insertUndo stores.undos block transactionUndos).mapError .undo
      return { stores with undos }
  | .removeUndo block => .ok { stores with undos := stores.undos.erase block }
  | .advance expectedParent next => do
      let tip ← (advanceTip stores.validationTarget stores.tip expectedParent next).mapError .execution
      return { stores with tip }
  | .rewind expectedCurrent parent => do
      let tip ← (rewindTip stores.tip expectedCurrent parent).mapError .execution
      return { stores with tip }
  | .clearTransition expected => do
      ensure (∀ pending ∈ stores.pending, pending.next.hash = expected) (.undo (.wrongPending expected))
      return { stores with pending := none }

end SplitStores

inductive PendingUtxoState where
  | before
  | after
  | either
  | mixed
  deriving DecidableEq, Repr

def PendingUtxoState.matchesBefore (state : PendingUtxoState) : Bool :=
  state = .before || state = .either

def PendingUtxoState.matchesAfter (state : PendingUtxoState) : Bool :=
  state = .after || state = .either

namespace PendingTransition

variable (pending : PendingTransition)

def keys : List OutPointKey :=
  pending.undo.spent.map Prod.fst ++ pending.undo.created

def Matches (coins : CoinTable)
    (entries : List CoinEntry) : Prop :=
  ∀ key ∈ pending.keys, coins.lookup key = ((∅ : CoinTable).insertAll entries).lookup key

instance (pending : PendingTransition) (coins : CoinTable)
    (entries : List CoinEntry) : Decidable (pending.Matches coins entries) :=
  inferInstanceAs (Decidable (∀ key ∈ pending.keys, _))

def utxoState (coins : CoinTable) : PendingUtxoState :=
  match decide (pending.Matches coins pending.undo.spent),
      decide (pending.Matches coins pending.created) with
  | true, true => .either
  | true, false => .before
  | false, true => .after
  | false, false => .mixed

/-- The step that takes the coins back to the parent, if they are not there. -/
def rollback (coins : CoinTable) :
    Except BlockExecutionError (List StoreStep) :=
  match pending.utxoState coins with
  | .before | .either => .ok []
  | .after => .ok [.undo pending.undo]
  | .mixed => .error .inconsistentTransition

end PendingTransition

namespace SplitStores

variable (stores : SplitStores)

/-- The writes that recover a connect: it is rolled back unless the tip reached the child. -/
def connectRecovery (pending : PendingTransition) :
    Except BlockExecutionError (List StoreStep) :=
  if stores.tip = pending.parent then do
    let rollback ← pending.rollback stores.coins
    return rollback ++ [.removeUndo pending.next.hash, .clearTransition pending.next.hash]
  else if stores.tip = pending.next then do
    ensure ((pending.utxoState stores.coins).matchesAfter = true) .inconsistentTransition
    ensure (stores.undos.lookup pending.next.hash ≠ none) (.missingUndo pending.next.hash)
    return [.clearTransition pending.next.hash]
  else .error (.transitionTipMismatch stores.tip.height stores.tip.hash)

/-- The writes that recover a disconnect: it is completed unless the tip reached the parent. -/
def disconnectRecovery (pending : PendingTransition) :
    Except BlockExecutionError (List StoreStep) :=
  if stores.tip = pending.next then do
    let rollback ← pending.rollback stores.coins
    return rollback ++ [.rewind pending.next pending.parent, .removeUndo pending.next.hash,
      .clearTransition pending.next.hash]
  else if stores.tip = pending.parent then do
    ensure ((pending.utxoState stores.coins).matchesBefore = true) .inconsistentTransition
    return [.removeUndo pending.next.hash, .clearTransition pending.next.hash]
  else .error (.transitionTipMismatch stores.tip.height stores.tip.hash)

/-- The writes of `recover_pending_transition`, which it decides on before it makes the first. -/
def recoveryPlan : Except BlockExecutionError (List StoreStep) :=
  match stores.pending with
  | none => .ok []
  | some pending =>
    match pending.kind with
    | .connect => stores.connectRecovery pending
    | .disconnect => stores.disconnectRecovery pending

def recoverPendingTransition :
    Except BlockExecutionError (SplitStores × Bool) := do
  let steps ← stores.recoveryPlan
  let recovered ← foldOutcome perform stores steps
  return (recovered, stores.pending.isSome)

end SplitStores

/-- A block to connect or disconnect: what it does to the coins and the undo records kept of it. -/
structure BlockTransition where
  next : ExecutionTip
  spent : List OutPointKey
  created : List CoinEntry
  transactionUndos : List UtxoUndo

namespace BlockTransition

/-- The write-ahead record of a block that is connected to a parent state or disconnected from the
child state. -/
def pending (block : BlockTransition) (kind : TransitionKind) (parent : SplitStores) :
    PendingTransition :=
  { kind
    parent := parent.tip
    next := block.next
    undo := ⟨parent.coins.entriesAt block.spent, block.created.map Prod.fst⟩
    created := block.created }

def protocol (block : BlockTransition) (parent : SplitStores) : TransitionKind → List StoreStep
  | .connect =>
    [.prepareTransition (block.pending .connect parent), .applyWithUndo block.spent block.created,
      .insertUndo block.next.hash block.transactionUndos, .advance parent.tip.hash block.next,
      .clearTransition block.next.hash]
  | .disconnect =>
    [.prepareTransition (block.pending .disconnect parent), .undo (block.pending .disconnect parent).undo,
      .removeUndo block.next.hash, .rewind block.next parent.tip, .clearTransition block.next.hash]

end BlockTransition

open BlockTransition PendingTransition Table Option SplitStores

namespace PendingTransition

variable {pending : PendingTransition} {coins : CoinTable}

theorem matchesBefore_iff :
    (pending.utxoState coins).matchesBefore = true ↔ pending.Matches coins pending.undo.spent := by
  by_cases before : pending.Matches coins pending.undo.spent <;>
    by_cases after : pending.Matches coins pending.created <;>
    simp [utxoState, before, after, PendingUtxoState.matchesBefore]

theorem matchesAfter_iff : (pending.utxoState coins).matchesAfter = true ↔ pending.Matches coins pending.created := by
  by_cases before : pending.Matches coins pending.undo.spent <;>
    by_cases after : pending.Matches coins pending.created <;>
    simp [utxoState, before, after, PendingUtxoState.matchesAfter]

theorem rollback_of_before (before : pending.Matches coins pending.undo.spent) : pending.rollback coins = .ok [] := by
  by_cases after : pending.Matches coins pending.created <;> simp [rollback, utxoState, before, after]

theorem rollback_of_after (moved : ¬ pending.Matches coins pending.undo.spent)
    (after : pending.Matches coins pending.created) : pending.rollback coins = .ok [.undo pending.undo] := by
  simp [rollback, utxoState, moved, after]

end PendingTransition

def BlockTransition.applied (block : BlockTransition) (coins : CoinTable) :
    CoinTable :=
  (coins.eraseAll block.spent).insertAll block.created

def BlockTransition.child (block : BlockTransition) (parent : SplitStores) : SplitStores :=
  { parent with
    coins := block.applied parent.coins
    undos := parent.undos.insert block.next.hash block.transactionUndos
    tip := block.next }

/-- A block that can be connected to stores with nothing pending. -/
structure Connectable (parent : SplitStores) (block : BlockTransition) : Prop where
  idle : parent.pending = none
  applicable : Edit.Applicable parent.coins.lookup block.spent block.created
  unrecorded : parent.undos.lookup block.next.hash = none
  advances : advanceTip parent.validationTarget parent.tip parent.tip.hash block.next = .ok block.next

variable {parent : SplitStores} {block : BlockTransition}

theorem connect_protocol_eq_ok {child : SplitStores} :
    foldOutcome perform parent (block.protocol parent .connect) = .ok child ↔
      Connectable parent block ∧ child = block.child parent := by
  simp only [protocol, foldOutcome_cons, foldOutcome_nil, perform,
    insertUndo, bind_eq_ok, pure_eq_ok, ensure_eq_ok, mapError_eq_ok, Except.ok.injEq]
  constructor
  · rintro ⟨_, ⟨_, idle, rfl⟩, _, ⟨applied, mutated, rfl⟩, _, ⟨_, ⟨_, unrecorded, rfl⟩, rfl⟩,
      _, ⟨_, advanced, rfl⟩, _, ⟨_, _, rfl⟩, rfl⟩
    obtain ⟨applicable, rfl⟩ := applyWithUndo_eq_ok.mp mutated
    obtain rfl := (advanceTip_eq_ok.mp advanced).2
    refine ⟨⟨idle, applicable, unrecorded, advanced⟩, ?_⟩
    simp [child, applied, idle]
  rintro ⟨connectable, rfl⟩
  refine ⟨_, ⟨(), connectable.idle, rfl⟩, _, ⟨_, applyWithUndo_eq_ok.mpr ⟨connectable.applicable, rfl⟩, rfl⟩, _,
    ⟨_, ⟨(), connectable.unrecorded, rfl⟩, rfl⟩, _, ⟨_, connectable.advances, rfl⟩, _, ⟨(), ?_, rfl⟩, ?_⟩
  · rintro pending ⟨⟩
    rfl
  · simp [child, applied, connectable.idle]

namespace Connectable

variable (connectable : Connectable parent block)
include connectable

theorem tip_ne : parent.tip ≠ block.next := by
  intro same
  have height := (advanceTip_eq_ok.mp connectable.advances).1.height
  have exceeds := (checkedAdd_eq_some.mp height).2
  rw [← same] at exceeds
  omega

theorem lookup_spent (key : OutPointKey) :
    ((∅ : CoinTable).insertAll (parent.coins.entriesAt block.spent)).lookup key =
      if key ∈ block.spent then parent.coins.lookup key else none := by
  have keys := map_fst_entriesAt connectable.applicable.spent_present
  rw [lookup_insertAll _ (keys.symm ▸ connectable.applicable.spent_nodup),
    entriesAt, lookup_ofList_entriesOf, lookup_empty, or_none]

theorem lookup_applied (key : OutPointKey) :
    (block.applied parent.coins).lookup key = ((ofList block.created).lookup key).or
      (if key ∈ block.spent then none else parent.coins.lookup key) := by
  rw [applied, lookup_insertAll _ connectable.applicable.created_nodup, lookup_eraseAll]

theorem mem_keys {kind : TransitionKind} {key : OutPointKey} :
    key ∈ (block.pending kind parent).keys ↔ key ∈ block.spent ∨ key ∈ block.created.map Prod.fst := by
  rw [keys]
  simp [BlockTransition.pending, map_fst_entriesAt connectable.applicable.spent_present]

variable (kind : TransitionKind)

theorem matches_before : (block.pending kind parent).Matches parent.coins (block.pending kind parent).undo.spent := by
  intro key member
  rw [BlockTransition.pending, connectable.lookup_spent]
  split
  · rfl
  · next unspent =>
    have created := (connectable.mem_keys.mp member).resolve_left unspent
    exact connectable.applicable.created_fresh key created unspent

theorem matches_after :
    (block.pending kind parent).Matches (block.applied parent.coins) (block.pending kind parent).created := by
  intro key member
  rw [BlockTransition.pending, connectable.lookup_applied,
    lookup_insertAll _ connectable.applicable.created_nodup, lookup_empty]
  cases created : (ofList block.created).lookup key with
  | some _ => rfl
  | none =>
    rw [lookup_ofList_eq_none] at created
    rw [if_pos ((connectable.mem_keys.mp member).resolve_right created)]

theorem applied_eq {kind : TransitionKind} (same : (block.pending kind parent).Matches (block.applied parent.coins)
      (block.pending kind parent).undo.spent) : block.applied parent.coins = parent.coins := by
  ext key : 1
  by_cases changed : key ∈ (block.pending kind parent).keys
  · rw [same key changed, connectable.matches_before kind key changed]
  · rw [connectable.mem_keys, not_or] at changed
    rw [connectable.lookup_applied, if_neg changed.1, lookup_ofList_eq_none.mpr changed.2, none_or]

theorem undoMutation_applied :
    undoMutation (block.applied parent.coins) (block.pending kind parent).undo = .ok parent.coins := by
  obtain ⟨checks, checked⟩ : ∃ checks, (parent.coins.entriesAt block.spent).mapM (fun entry =>
      ensure (entry.1 ∈ block.created.map Prod.fst ∨ (block.applied parent.coins).lookup entry.1 = none)
        (UtxoError.duplicate entry.1)) = .ok checks := by
    exact mapM_eq_ok.mpr fun entry member =>
      ⟨(), ensure_eq_ok.mpr (connectable.applicable.absent entry member)⟩
  exact bind_eq_ok.mpr ⟨checks, checked, pure_eq_ok.mpr connectable.applicable.reverted_table⟩

end Connectable

/-- Between the first and the last write: a connect moves the tip last, a disconnect after the coins. -/
structure Underway (parent : SplitStores) (block : BlockTransition) (kind : TransitionKind)
    (stores : SplitStores) : Prop where
  pending : stores.pending = some (block.pending kind parent)
  target : stores.validationTarget = parent.validationTarget
  coins : stores.coins = parent.coins ∨ stores.coins = block.applied parent.coins
  undos : stores.undos = parent.undos ∨ stores.undos = (block.child parent).undos
  tip : stores.tip = parent.tip ∨ stores.tip = block.next
  connected : kind = .connect → stores.tip = block.next →
    stores.coins = block.applied parent.coins ∧ stores.undos = (block.child parent).undos
  disconnected : kind = .disconnect → stores.tip = parent.tip → stores.coins = parent.coins

def Settled (parent : SplitStores) (block : BlockTransition) (stores : SplitStores) : Prop :=
  stores = parent ∨ stores = block.child parent

def Passing (parent : SplitStores) (block : BlockTransition) (kind : TransitionKind)
    (stores : SplitStores) : Prop :=
  Settled parent block stores ∨ Underway parent block kind stores

theorem Settled.idle {stores : SplitStores}
    (connectable : Connectable parent block) (settled : Settled parent block stores) : stores.pending = none := by
  obtain rfl | rfl := settled
  · exact connectable.idle
  · exact connectable.idle

section
variable {kind : TransitionKind}

theorem Connectable.erase_undos (connectable : Connectable parent block) {undos : Table BlockHash (List UtxoUndo)}
    (recorded : undos = parent.undos ∨ undos = (block.child parent).undos) :
    undos.erase block.next.hash = parent.undos := by
  obtain rfl | rfl := recorded
  · ext hash : 1
    rw [lookup_erase]
    split
    · next same => rw [same, connectable.unrecorded]
    · rfl
  · exact erase_insert_of_fresh connectable.unrecorded

variable {stores : SplitStores}

theorem Underway.rollback (connectable : Connectable parent block) {final : SplitStores}
    (underway : Underway parent block kind stores) {rest : List StoreStep}
    (later : Leads perform (Passing parent block kind)
      { stores with coins := parent.coins } rest final) :
    ∃ steps, (block.pending kind parent).rollback stores.coins = .ok steps ∧
      Leads perform (Passing parent block kind) stores (steps ++ rest) final := by
  by_cases same : stores.coins = parent.coins
  · refine ⟨[], ?_, ?_⟩
    · rw [same]
      exact rollback_of_before (connectable.matches_before kind)
    · rwa [← same] at later
  have applied := underway.coins.resolve_left same
  have moved : ¬ (block.pending kind parent).Matches stores.coins (block.pending kind parent).undo.spent := by
    intro both
    rw [applied] at both
    exact same (applied.trans (connectable.applied_eq both))
  have after : (block.pending kind parent).Matches stores.coins
      (block.pending kind parent).created := applied ▸ connectable.matches_after kind
  refine ⟨_, rollback_of_after moved after, .cons (.inr underway) ?_ later⟩
  rw [perform, applied, connectable.undoMutation_applied]
  rfl

theorem Underway.clears (underway : Underway parent block kind stores) :
    stores.perform (.clearTransition block.next.hash) = .ok { stores with pending := none } := by
  have expected : ∀ pending ∈ stores.pending, pending.next.hash = block.next.hash := by
    rw [underway.pending]
    rintro pending ⟨⟩
    rfl
  simp only [perform, ensure_of expected]
  rfl

section
variable (connectable : Connectable parent block)
include connectable

/-- From the coins and the tip of the parent, removing the undo record and clearing the transition
gives the parent state. -/
theorem Underway.finish_parent (underway : Underway parent block kind stores) (coins : stores.coins = parent.coins)
    (tip : stores.tip = parent.tip) : Leads perform (Passing parent block kind) stores
      [.removeUndo block.next.hash, .clearTransition block.next.hash] parent := by
  have removed : Underway parent block kind { stores with undos := parent.undos } :=
    { underway with
      undos := .inl rfl
      connected := fun _ above => absurd (tip.symm.trans above) connectable.tip_ne
      disconnected := fun _ _ => coins }
  refine .cons (.inr underway) ?_ (.cons (.inr removed) ?_ (.nil (.inl (.inl rfl))))
  · rw [perform, connectable.erase_undos underway.undos]
  · refine removed.clears.trans (congrArg Except.ok ?_)
    exact SplitStores.ext coins rfl connectable.idle.symm tip underway.target

theorem Underway.connectRecovery (underway : Underway parent block .connect stores) :
    ∃ steps final, stores.connectRecovery (block.pending .connect parent) = .ok steps ∧
      Settled parent block final ∧ Leads perform (Passing parent block .connect) stores steps final := by
  obtain below | above := underway.tip
  · have rolledBack : Underway parent block .connect { stores with coins := parent.coins } :=
      { underway with
        coins := .inl rfl
        connected := fun _ above => absurd (below.symm.trans above) connectable.tip_ne
        disconnected := fun _ _ => rfl }
    obtain ⟨steps, planned, leads⟩ := underway.rollback connectable
      (rolledBack.finish_parent connectable rfl below)
    refine ⟨_, parent, ?_, .inl rfl, leads⟩
    exact (if_pos below).trans (bind_eq_ok.mpr ⟨steps, planned, rfl⟩)
  · obtain ⟨coins, undos⟩ := underway.connected rfl above
    have reached : stores.tip ≠ parent.tip := fun below =>
      connectable.tip_ne (below.symm.trans above)
    have recorded : stores.undos.lookup block.next.hash ≠ none := by
      rw [undos, child, lookup_insert_self]
      exact some_ne_none _
    have after := coins ▸ connectable.matches_after .connect
    have cleared : { stores with pending := none } = block.child parent :=
      SplitStores.ext coins undos connectable.idle.symm above underway.target
    refine ⟨_, block.child parent, ?_, .inr rfl,
      .cons (.inr underway) (underway.clears.trans (congrArg Except.ok cleared)) (.nil (.inl (.inr rfl)))⟩
    refine (if_neg reached).trans ((if_pos above).trans ?_)
    exact bind_eq_ok.mpr ⟨(), ensure_of (matchesAfter_iff.mpr after), bind_eq_ok.mpr ⟨(), ensure_of recorded, rfl⟩⟩

theorem Underway.disconnectRecovery (underway : Underway parent block .disconnect stores) :
    ∃ steps final, stores.disconnectRecovery (block.pending .disconnect parent) = .ok steps ∧
      Settled parent block final ∧ Leads perform (Passing parent block .disconnect) stores steps final := by
  obtain below | above := underway.tip
  · have coins := underway.disconnected rfl below
    have lower : stores.tip ≠ block.next := fun above =>
      connectable.tip_ne (below.symm.trans above)
    have before := coins ▸ connectable.matches_before .disconnect
    refine ⟨_, parent, ?_, .inl rfl, underway.finish_parent connectable coins below⟩
    refine (if_neg lower).trans ((if_pos below).trans ?_)
    exact bind_eq_ok.mpr ⟨(), ensure_of (matchesBefore_iff.mpr before), rfl⟩
  · have rolledBack : Underway parent block .disconnect { stores with coins := parent.coins } :=
      { underway with
        coins := .inl rfl
        connected := nofun
        disconnected := fun _ _ => rfl }
    have rewound : Underway parent block .disconnect
        { stores with coins := parent.coins, tip := parent.tip } :=
      { rolledBack with
        tip := .inl rfl
        connected := nofun
        disconnected := fun _ _ => rfl }
    have rewinds : ({ stores with coins := parent.coins }).perform (.rewind block.next parent.tip) =
          .ok { stores with coins := parent.coins, tip := parent.tip } := by
      have height := (advanceTip_eq_ok.mp connectable.advances).1.height
      have extends_parent : stores.tip = block.next ∧
          checkedAdd 32 parent.tip.height 1 = some stores.tip.height := ⟨above, above ▸ height⟩
      simp only [perform, rewindTip, ensure_of extends_parent]
      rfl
    obtain ⟨steps, planned, leads⟩ := underway.rollback connectable
      (.cons (.inr rolledBack) rewinds (rewound.finish_parent connectable rfl rfl))
    refine ⟨_, parent, ?_, .inl rfl, leads⟩
    exact (if_pos above).trans (bind_eq_ok.mpr ⟨steps, planned, rfl⟩)

/-- Every state has a recovery plan that leads to the parent or the child state. -/
theorem Passing.recovers (passing : Passing parent block kind stores) :
    ∃ steps final, stores.recoveryPlan = .ok steps ∧ Settled parent block final ∧
      Leads perform (Passing parent block kind) stores steps final := by
  obtain settled | underway := passing
  · refine ⟨[], stores, ?_, settled, .nil (.inl settled)⟩
    rw [recoveryPlan, settled.idle connectable]
  simp only [recoveryPlan, underway.pending]
  cases kind with
  | connect => exact underway.connectRecovery connectable
  | disconnect => exact underway.disconnectRecovery connectable

theorem Settled.recover (settled : Settled parent block stores) :
    stores.recoverPendingTransition = .ok (stores, false) := by
  have idle := settled.idle connectable
  simp only [recoverPendingTransition, recoveryPlan, idle]
  rfl

theorem connect_protocol_leads :
    Leads perform (Passing parent block .connect) parent (block.protocol parent .connect) (block.child parent) := by
  have prepared : Underway parent block .connect
      { parent with pending := some (block.pending .connect parent) } :=
    { pending := rfl
      target := rfl
      coins := .inl rfl
      undos := .inl rfl
      tip := .inl rfl
      connected := fun _ above => absurd above connectable.tip_ne
      disconnected := fun _ _ => rfl }
  have mutated : Underway parent block .connect
      { parent with
        pending := some (block.pending .connect parent)
        coins := block.applied parent.coins } :=
    { prepared with
      coins := .inr rfl
      connected := fun _ above => absurd above connectable.tip_ne
      disconnected := nofun }
  have recorded : Underway parent block .connect
      { parent with
        pending := some (block.pending .connect parent)
        coins := block.applied parent.coins
        undos := (block.child parent).undos } :=
    { mutated with
      undos := .inr rfl
      connected := fun _ _ => ⟨rfl, rfl⟩
      disconnected := nofun }
  have advanced : Underway parent block .connect
      { block.child parent with pending := some (block.pending .connect parent) } :=
    { recorded with
      tip := .inr rfl
      connected := fun _ _ => ⟨rfl, rfl⟩
      disconnected := nofun }
  refine .cons (.inl (.inl rfl)) ?_ (.cons (.inr prepared) ?_ (.cons (.inr mutated) ?_
    (.cons (.inr recorded) ?_ (.cons (.inr advanced) ?_ (.nil (.inl (.inr rfl)))))))
  · simp only [perform, ensure_of connectable.idle]
    rfl
  · rw [perform, applyWithUndo_eq_ok.mpr ⟨connectable.applicable, rfl⟩]
    rfl
  · simp only [perform, insertUndo, ensure_of connectable.unrecorded]
    rfl
  · rw [perform, connectable.advances]
    rfl
  · refine advanced.clears.trans (congrArg Except.ok ?_)
    exact SplitStores.ext rfl rfl connectable.idle.symm rfl rfl

theorem disconnect_protocol_leads : Leads perform (Passing parent block .disconnect) (block.child parent)
      (block.protocol parent .disconnect) parent := by
  have prepared : Underway parent block .disconnect
      { block.child parent with pending := some (block.pending .disconnect parent) } :=
    { pending := rfl
      target := rfl
      coins := .inr rfl
      undos := .inr rfl
      tip := .inr rfl
      connected := nofun
      disconnected := fun _ below => absurd below.symm connectable.tip_ne }
  have mutated : Underway parent block .disconnect
      { block.child parent with
        pending := some (block.pending .disconnect parent)
        coins := parent.coins } :=
    { prepared with
      coins := .inl rfl
      connected := nofun
      disconnected := fun _ _ => rfl }
  have removed : Underway parent block .disconnect
      { parent with pending := some (block.pending .disconnect parent), tip := block.next } :=
    { mutated with
      undos := .inl rfl
      connected := nofun
      disconnected := fun _ _ => rfl }
  have rewound : Underway parent block .disconnect
      { parent with pending := some (block.pending .disconnect parent) } :=
    { removed with
      tip := .inl rfl
      connected := nofun
      disconnected := fun _ _ => rfl }
  refine .cons (.inl (.inr rfl)) ?_ (.cons (.inr prepared) ?_ (.cons (.inr mutated) ?_
    (.cons (.inr removed) ?_ (.cons (.inr rewound) ?_ (.nil (.inl (.inl rfl)))))))
  · have idle : (block.child parent).pending = none := connectable.idle
    simp only [perform, ensure_of idle]
    rfl
  · exact bind_eq_ok.mpr ⟨parent.coins, mapError_eq_ok.mpr (connectable.undoMutation_applied .disconnect), rfl⟩
  · rw [perform, connectable.erase_undos mutated.undos]
    rfl
  · have height := (advanceTip_eq_ok.mp connectable.advances).1.height
    exact bind_eq_ok.mpr ⟨parent.tip, mapError_eq_ok.mpr (bind_eq_ok.mpr ⟨(), ensure_of ⟨rfl, height⟩, rfl⟩), rfl⟩
  · refine rewound.clears.trans (congrArg Except.ok ?_)
    exact SplitStores.ext rfl rfl connectable.idle.symm rfl rfl

end

def BlockTransition.start (block : BlockTransition) (parent : SplitStores) : TransitionKind → SplitStores
  | .connect => parent
  | .disconnect => block.child parent

/-- However often a transition and its recoveries are cut short, a completed recovery ends in
exactly the parent state or the child state. -/
theorem recovery_settles {child : SplitStores}
    (accepted : foldOutcome perform parent (block.protocol parent .connect) = .ok child)
    {reached : SplitStores} (interrupted : Interrupted perform recoveryPlan
      (block.start parent kind) (block.protocol parent kind) reached) :
    ∃ final recovered, reached.recoverPendingTransition = .ok (final, recovered) ∧
      (final = parent ∨ final = child) ∧ final.pending = none ∧
      final.recoverPendingTransition = .ok (final, false) := by
  obtain ⟨connectable, rfl⟩ := connect_protocol_eq_ok.mp accepted
  have passing : Passing parent block kind reached := by
    refine interrupted.invariant (fun state cut => ?_) fun state steps next passing planned cut => ?_
    · cases kind with
      | connect => exact (connect_protocol_leads connectable).passes state cut
      | disconnect => exact (disconnect_protocol_leads connectable).passes state cut
    · obtain ⟨_, _, planned', -, leads⟩ := passing.recovers connectable
      obtain rfl := Except.ok.inj (planned'.symm.trans planned)
      exact leads.passes next cut
  obtain ⟨steps, final, planned, settled, leads⟩ := passing.recovers connectable
  refine ⟨final, reached.pending.isSome, ?_, settled, settled.idle connectable, settled.recover connectable⟩
  exact bind_eq_ok.mpr ⟨steps, planned, bind_eq_ok.mpr ⟨final, leads.completes, rfl⟩⟩

end

def sampleKey (number : Nat) : OutPointKey := ⟨⟨number⟩, 0⟩

def sampleCoin : Utxo :=
  { valueSats := 5
    height := 0
    isCoinbase := false
    lastTouched := 0
    creationMtp := 0
    scriptPubkey := [0x51] }

def sampleParent : SplitStores :=
  { coins := singleton (sampleKey 1) sampleCoin
    undos := ∅
    pending := none
    tip := ⟨0, ⟨0⟩⟩
    validationTarget := none }

def sampleBlock : BlockTransition :=
  { next := ⟨1, ⟨1⟩⟩
    spent := [sampleKey 1]
    created := [(sampleKey 2, sampleCoin)]
    transactionUndos := [⟨[(sampleKey 1, sampleCoin)], [sampleKey 2]⟩] }

/-- The block's connect was cut short after the undo record, and its recovery after the coins were
taken back. -/
def sampleReached : SplitStores :=
  { sampleParent with
    undos := (sampleBlock.child sampleParent).undos
    pending := some (sampleBlock.pending .connect sampleParent) }

theorem connectable_sample : Connectable sampleParent sampleBlock where
  idle := rfl
  applicable :=
    { spent_nodup := by decide
      spent_present := by decide
      created_nodup := by decide
      created_fresh := by decide }
  unrecorded := rfl
  advances := rfl

theorem recovery_settles_sample : foldOutcome perform sampleParent (sampleBlock.protocol sampleParent .connect) =
        .ok (sampleBlock.child sampleParent) ∧ Interrupted perform recoveryPlan
        (sampleBlock.start sampleParent .connect) (sampleBlock.protocol sampleParent .connect) sampleReached ∧
      ∃ final recovered, sampleReached.recoverPendingTransition = .ok (final, recovered) ∧
        (final = sampleParent ∨ final = sampleBlock.child sampleParent) ∧ final.pending = none ∧
        final.recoverPendingTransition = .ok (final, false) := by
  have accepted := connect_protocol_eq_ok.mpr ⟨connectable_sample, rfl⟩
  have interrupted : Interrupted perform recoveryPlan
      (sampleBlock.start sampleParent .connect) (sampleBlock.protocol sampleParent .connect) sampleReached :=
    .recovery (.protocol ⟨(sampleBlock.protocol sampleParent .connect).take 3, _, rfl, rfl⟩) rfl
      ⟨[.undo (sampleBlock.pending .connect sampleParent).undo], _, rfl, rfl⟩
  exact ⟨accepted, interrupted, recovery_settles accepted interrupted⟩

end Rbtc.Execution
