import Rbtc.SnapshotOverlay.Store

/-! The overlay store's tables are determined by the edits, however these are grouped. Runs of the store against
a plain coin map that starts as the base. -/

namespace Rbtc.SnapshotOverlay

open Foundation Bitcoin Chainstate OverlayStore NetChange

namespace OverlayStore

open CoinTables Table Edit

def connectOne (engine : OverlayEngine) (base : SnapshotBase) (store : OverlayStore)
    (transition : ConnectTransition) : Except ChainStoreError OverlayStore := do
  let (committed, _) ← store.commitConnect engine base transition.expectedParent transition.next
    transition.spent transition.created transition.transactionUndos
  return committed

def connectAll (engine : OverlayEngine) (base : SnapshotBase) (store : OverlayStore)
    (transitions : Transitions) : Except ChainStoreError OverlayStore :=
  foldOutcome (connectOne engine base) store transitions

def recordAll (undos : Table BlockHash (List UtxoUndo)) (transitions : Transitions) :
    Table BlockHash (List UtxoUndo) :=
  transitions.foldl (fun undos transition =>
    undos.insert transition.next.hash transition.transactionUndos) undos

def Commits (base : SnapshotBase) (store : OverlayStore) (transitions : Transitions)
    (edits : List (Edit OutPointKey Utxo)) (final : OverlayStore) : Prop :=
  Becomes base store.tables edits final.tables ∧ advanceTips none store.tip transitions = .ok final.tip ∧
    final.undos = recordAll store.undos transitions

variable {engine : OverlayEngine} {base : SnapshotBase} {store final : OverlayStore}
  {transitions : Transitions} {transition : ConnectTransition}

theorem foldOutcome_recordBlock {recorded : OverlayStore} : foldOutcome recordBlock store transitions = .ok recorded ↔
      recorded.tables = store.tables ∧ advanceTips none store.tip transitions = .ok recorded.tip ∧
        recorded.undos = recordAll store.undos transitions := by
  induction transitions generalizing store with
  | nil =>
    simp only [foldOutcome_nil, Except.ok.injEq, advanceTips]
    constructor
    · rintro rfl
      exact ⟨rfl, rfl, rfl⟩
    · rintro ⟨tables, tip, undos⟩
      exact OverlayStore.ext (congrArg CoinTables.overlay tables.symm)
        (congrArg CoinTables.tombstones tables.symm) undos.symm tip
  | cons _ _ ih =>
    simp only [foldOutcome_cons, recordBlock, OverlayStore.advanceTip, bind_eq_ok, mapError_eq_ok, advanceTip_eq_ok,
      pure_eq_ok, ih, advanceTips_cons]
    constructor
    · rintro ⟨_, ⟨_, ⟨first, rfl⟩, rfl⟩, tables, advances, undos⟩
      exact ⟨tables, ⟨first, advances⟩, undos⟩
    · rintro ⟨tables, ⟨first, advances⟩, undos⟩
      exact ⟨_, ⟨_, ⟨first, rfl⟩, rfl⟩, tables, advances, undos⟩

section
variable {spent : List OutPointKey} {created : List CoinEntry}

theorem commitConnectFolded_eq_ok (consistent : store.tables.Consistent base) (some : transitions ≠ []) :
    store.commitConnectFolded engine base transitions spent created = .ok final ↔
      FitsAll (store.tables.visible base) (ofLists spent created) ∧
        store.Commits base transitions (ofLists spent created) final := by
  simp only [commitConnectFolded, if_neg some, bind_eq_ok, mapError_eq_ok, pure_eq_ok, foldOutcome_recordBlock]
  constructor
  · rintro ⟨_, ⟨unchanged, advances, undos⟩, ⟨tables, undo⟩, mutated, rfl⟩
    rw [unchanged] at mutated
    obtain ⟨fits, becomes⟩ := (connectMutation_eq_ok consistent).mp ⟨undo, mutated⟩
    exact ⟨fits, becomes, advances, undos⟩
  · rintro ⟨fits, becomes, advances, undos⟩
    obtain ⟨_, mutated⟩ := (@connectMutation_eq_ok _ engine _ _ _ _ consistent).mpr ⟨fits, becomes⟩
    exact ⟨final.withTables store.tables, ⟨rfl, advances, undos⟩, _, mutated, rfl⟩

theorem connectOne_eq (store : OverlayStore) (transition : ConnectTransition) :
    store.connectOne engine base transition =
      store.commitConnectFolded engine base [transition] transition.spent transition.created := by
  simp only [connectOne, commitConnect, commitConnectFolded, recordBlock, foldOutcome_singleton, reduceCtorEq, if_false,
    bind_assoc, pure_bind]
  rfl

theorem connectOne_eq_ok (consistent : store.tables.Consistent base) :
    store.connectOne engine base transition = .ok final ↔ FitsAll (store.tables.visible base) transition.edits ∧
        store.Commits base [transition] transition.edits final := by
  rw [connectOne_eq]
  exact commitConnectFolded_eq_ok consistent (List.cons_ne_nil _ _)

theorem connectAll_eq_ok (consistent : store.tables.Consistent base) :
    store.connectAll engine base transitions = .ok final ↔
      FitsAll (store.tables.visible base) (batchEdits transitions) ∧
        store.Commits base transitions (batchEdits transitions) final := by
  induction transitions generalizing store with
  | nil =>
    simp only [connectAll, foldOutcome_nil, Except.ok.injEq]
    constructor
    · rintro rfl
      exact ⟨trivial, becomes_nil consistent, rfl, rfl⟩
    rintro ⟨-, becomes, advances, undos⟩
    have same := (becomes_nil consistent).unique becomes
    exact OverlayStore.ext (congrArg CoinTables.overlay same) (congrArg CoinTables.tombstones same)
      undos.symm (Except.ok.inj advances)
  | cons transition _ ih =>
    rw [connectAll, foldOutcome_cons]
    simp only [bind_eq_ok, connectOne_eq_ok consistent, batchEdits_cons, fitsAll_append]
    constructor
    · rintro ⟨next, ⟨fits, becomes, advances, undos⟩, remaining⟩
      obtain ⟨restFits, restBecomes, restAdvances, restUndos⟩ := (ih becomes.consistent).mp remaining
      obtain ⟨first, isTip⟩ := advanceTips_cons.mp advances
      rw [becomes.visible] at restFits
      rw [← Except.ok.inj isTip] at restAdvances
      refine ⟨⟨fits, restFits⟩, becomes.append restBecomes, advanceTips_cons.mpr ⟨first, restAdvances⟩, ?_⟩
      rw [restUndos, undos]
      rfl
    · rintro ⟨⟨fits, restFits⟩, becomes, advances, undos⟩
      obtain ⟨advanced, restAdvances⟩ := advanceTips_cons.mp advances
      obtain ⟨middle, first, second⟩ := becomes.split consistent (fitsAll_append.mpr ⟨fits, restFits⟩)
      rw [← first.visible] at restFits
      let next : OverlayStore :=
        ⟨middle.overlay, middle.tombstones, recordAll store.undos [transition], transition.next⟩
      have isNext : store.Commits base [transition] transition.edits next :=
        ⟨first, advanceTips_cons.mpr ⟨advanced, rfl⟩, rfl⟩
      exact ⟨next, ⟨fits, isNext⟩, (@ih next first.consistent).mpr ⟨restFits, second, restAdvances, undos⟩⟩

/-- The tables do not tell a run of edits from its net change: a forgotten removal left no trace in them. -/
theorem becomes_net_iff {tables after : CoinTables} {edits : List (Edit OutPointKey Utxo)}
    (fits : FitsAll (tables.visible base) edits)
    (lists : ((∅ : NetChange OutPointKey Utxo).editAll edits).Lists spent created) : Becomes base tables edits after ↔
      Becomes base tables (ofLists spent created) after := by
  have tracks := (tracks_empty (tables.visible base)).editAll (fitsAll_iff.mp fits).2.2
  have view : applyAll (tables.visible base) edits = applyAll (tables.visible base) (ofLists spent created) := by
    rw [applyAll_eq_onto fits, lists.applyAll_eq]
  have buried : ∀ key, (key ∈ tables.tombstones ∨ key ∈ removedKeys edits ∧ base.coins.lookup key ≠ none) ↔
      (key ∈ tables.tombstones ∨ key ∈ removedKeys (ofLists spent created) ∧ base.coins.lookup key ≠ none) := by
    intro key
    rw [removedKeys_ofLists, lists.mem_spent]
    constructor
    · rintro (already | ⟨removed, inBase⟩)
      · exact .inl already
      by_cases already : key ∈ tables.tombstones
      · exact .inl already
      · have shown : tables.visible base key ≠ none := fun hidden =>
          (visible_eq_none.mp hidden).2.elim already inBase
        exact .inr ⟨tracks.recorded key removed shown, inBase⟩
    · rintro (already | ⟨spent, inBase⟩)
      · exact .inl already
      · exact .inr ⟨tracks.spent_removed key spent, inBase⟩
  constructor
  · rintro ⟨afterConsistent, afterView, tombstones⟩
    exact ⟨afterConsistent, afterView.trans view, fun key => (tombstones key).trans (buried key)⟩
  · rintro ⟨afterConsistent, afterView, tombstones⟩
    exact ⟨afterConsistent, afterView.trans view.symm, fun key => (tombstones key).trans (buried key).symm⟩

/-- One by one, a list is accepted exactly when its net change is and it hides no visible coin; then both
leave the same store. -/
theorem connectAll_iff_commitConnectFolded {change : NetChange OutPointKey Utxo}
    (consistent : store.tables.Consistent base) (some : transitions ≠ [])
    (folded : foldOutcome foldTransition ∅ transitions = .ok change) (lists : change.Lists spent created) :
    store.connectAll engine base transitions = .ok final ↔
      store.commitConnectFolded engine base transitions spent created = .ok final ∧
        ReplacesOnlySpent (store.tables.visible base) [] transitions := by
  obtain ⟨admits, rfl⟩ := foldOutcome_foldTransition.mp folded
  rw [connectAll_eq_ok consistent, commitConnectFolded_eq_ok consistent some, fitsAll_ofLists, lists.applicable_iff,
    replacesOnlySpent_iff]
  constructor
  · rintro ⟨fits, becomes, rest⟩
    obtain ⟨-, netFits, unhidden⟩ := fitsAll_iff.mp fits
    exact ⟨⟨netFits, (becomes_net_iff fits lists).mp becomes, rest⟩, unhidden⟩
  · rintro ⟨⟨netFits, becomes, rest⟩, unhidden⟩
    have fits := fitsAll_iff.mpr ⟨admits, netFits, unhidden⟩
    exact ⟨fits, (becomes_net_iff fits lists).mpr becomes, rest⟩

end

variable (consistent : store.tables.Consistent base)
include consistent

theorem connectAll_iff_commitConnectBatch : store.connectAll engine base transitions = .ok final ↔
      store.commitConnectBatch engine base transitions = .ok final ∧
        ReplacesOnlySpent (store.tables.visible base) [] transitions := by
  by_cases some : transitions = []
  · subst some
    simp [connectAll, commitConnectBatch, ReplacesOnlySpent]
  simp only [commitConnectBatch, if_neg some, bind_eq_ok, mapError_eq_ok]
  constructor
  · intro accepted
    obtain ⟨admits, -, -⟩ := fitsAll_iff.mp ((connectAll_eq_ok consistent).mp accepted).1
    have folded := foldOutcome_foldTransition.mpr ⟨admits, rfl⟩
    obtain ⟨committed, replaces⟩ := (connectAll_iff_commitConnectFolded consistent some folded
      (lists_sorted _)).mp accepted
    exact ⟨⟨_, folded, committed⟩, replaces⟩
  · rintro ⟨⟨change, folded, committed⟩, replaces⟩
    exact (connectAll_iff_commitConnectFolded consistent some folded
      (lists_sorted change)).mpr ⟨committed, replaces⟩

theorem connectAll_consistent
    (accepted : store.connectAll engine base transitions = .ok final) : final.tables.Consistent base :=
  ((connectAll_eq_ok consistent).mp accepted).2.1.consistent

theorem foldOutcome_commitConnectBatch {batches : List Transitions}
    (accepted : store.connectAll engine base batches.flatten = .ok final) :
    foldOutcome (commitConnectBatch engine base) store batches = .ok final := by
  induction batches generalizing store with
  | nil => exact accepted
  | cons _ _ ih =>
    rw [List.flatten_cons, connectAll, foldOutcome_append, bind_eq_ok] at accepted
    obtain ⟨_, first, remaining⟩ := accepted
    rw [foldOutcome_cons, ((connectAll_iff_commitConnectBatch consistent).mp first).1]
    exact ih (connectAll_consistent consistent first) remaining

end OverlayStore

/-- Transitions accepted one by one are accepted as a batch, which leaves the same store. -/
theorem commitConnectBatch_complete : (∀ (bloomHashes : OutPointKey → UInt64 × UInt64) (store final : RedbChainStore)
      (transitions : Transitions), store.journal = none → store.connectAll transitions = .ok final →
      store.commitConnectBatch bloomHashes transitions = .ok final) ∧
    ∀ (engine : OverlayEngine) (base : SnapshotBase) (store final : OverlayStore)
      (transitions : Transitions), store.tables.Consistent base →
      store.connectAll engine base transitions = .ok final →
      store.commitConnectBatch engine base transitions = .ok final ∧
        ∀ batches : List Transitions, batches.flatten = transitions →
          foldOutcome (commitConnectBatch engine base) store batches = .ok final := by
  constructor
  · intro bloomHashes store final transitions plain accepted
    exact ((RedbChainStore.connectAll_iff_commitConnectBatch plain).mp accepted).1
  intro engine base store final transitions consistent accepted
  refine ⟨((connectAll_iff_commitConnectBatch consistent).mp accepted).1, ?_⟩
  rintro batches rfl
  exact foldOutcome_commitConnectBatch consistent accepted

def heldKey : OutPointKey := ⟨⟨1⟩, 0⟩

def heldCoin : Utxo := ⟨50, 3, false, 0, 0, []⟩

def respendTransitions : Transitions :=
  [⟨⟨7⟩, ⟨8, ⟨8⟩⟩, [heldKey], [], [⟨[(heldKey, heldCoin)], []⟩]⟩,
    ⟨⟨8⟩, ⟨9, ⟨9⟩⟩, [], [(heldKey, ⟨20, 9, true, 0, 0, []⟩)], [⟨[], [heldKey]⟩]⟩]

def heldStore : RedbChainStore where
  coins := Table.ofList [(heldKey, heldCoin)]
  tip := ⟨7, ⟨7⟩⟩
  undos := ∅
  retainBlockUndo := true
  validationTarget := none
  assumedSnapshotBase := none
  ages := ⟨∅, none, none⟩
  tables := .empty
  journal := none

def heldBase : SnapshotBase where
  coins := Table.ofList [(heldKey, ⟨50, 3, false, []⟩)]
  height := 7
  blockHash := ⟨7⟩
  mtpByHeight := List.replicate 8 0
  importTime := 0
  heights_le := by
    intro outpoint coin found
    rw [Table.lookup_ofList_cons] at found
    split at found
    · cases found
      decide
    · cases found
  mtp_covers := rfl

theorem fresh_consistent (base : SnapshotBase) : (fresh base).tables.Consistent base where
  tombstones_base key buried := absurd buried (Finset.notMem_empty key)
  shadowed key written := absurd (Table.lookup_empty key) written

def respentStore : RedbChainStore :=
  heldStore.withTables (Table.ofList [(heldKey, ⟨20, 9, true, 0, 0, []⟩)])
    (Table.ofList [(⟨9⟩, [⟨[], [heldKey]⟩]), (⟨8⟩, [⟨[(heldKey, heldCoin)], []⟩])]) ⟨9, ⟨9⟩⟩
    ⟨Table.ofList [(5, 1)], some 8, some 9⟩

def respentOverlay : OverlayStore :=
  ⟨Table.ofList [(heldKey, ⟨20, 9, true, 0, 0, []⟩)], insert heldKey ∅,
    Table.ofList [(⟨9⟩, [⟨[], [heldKey]⟩]), (⟨8⟩, [⟨[(heldKey, heldCoin)], []⟩])], ⟨9, ⟨9⟩⟩⟩

theorem commitConnectBatch_complete_respent :
    heldStore.commitConnectBatch (fun _ => (0, 0)) respendTransitions = .ok respentStore ∧
      ∀ engine, commitConnectBatch engine heldBase (.fresh heldBase) respendTransitions = .ok respentOverlay := by
  obtain ⟨plain, overlay⟩ := commitConnectBatch_complete
  refine ⟨plain _ heldStore respentStore respendTransitions rfl rfl, fun engine => ?_⟩
  have accepted : connectAll engine heldBase (.fresh heldBase) respendTransitions = .ok respentOverlay := by
    cases engine <;> rfl
  exact (overlay engine heldBase _ _ respendTransitions (fresh_consistent heldBase) accepted).1

/-- An accepted batch is accepted one by one exactly when it creates no outpoint over a coin it has
not spent before. -/
theorem commitConnectBatch_sound_iff (bloomHashes : OutPointKey → UInt64 × UInt64)
    (engine : OverlayEngine) (base : SnapshotBase) (transitions : Transitions) :
    (∀ store final : RedbChainStore, store.journal = none →
      store.commitConnectBatch bloomHashes transitions = .ok final →
      ((∃ sequential, store.connectAll transitions = .ok sequential) ↔
        ReplacesOnlySpent store.coins.lookup [] transitions)) ∧
    (∀ store final : OverlayStore, store.tables.Consistent base →
      store.commitConnectBatch engine base transitions = .ok final →
      ((∃ sequential, store.connectAll engine base transitions = .ok sequential) ↔
        ReplacesOnlySpent (store.tables.visible base) [] transitions)) ∧
    ∀ (store final : OverlayStore) (change : NetChange OutPointKey Utxo) (spent : List OutPointKey)
      (created : List CoinEntry), store.tables.Consistent base → transitions ≠ [] →
      foldOutcome foldTransition ∅ transitions = .ok change → change.Lists spent created →
      store.commitConnectFolded engine base transitions spent created = .ok final →
      ((∃ sequential, store.connectAll engine base transitions = .ok sequential) ↔
        ReplacesOnlySpent (store.tables.visible base) [] transitions) := by
  refine ⟨?_, ?_, ?_⟩
  · intro store final plain accepted
    exact exists_eq_ok_iff (fun _ => RedbChainStore.connectAll_iff_commitConnectBatch plain) accepted
  · intro store final consistent accepted
    exact exists_eq_ok_iff (fun _ => connectAll_iff_commitConnectBatch consistent) accepted
  · intro store final change spent created consistent some folded lists accepted
    exact exists_eq_ok_iff (fun _ => connectAll_iff_commitConnectFolded consistent some folded lists) accepted

theorem commitConnectBatch_sound_iff_respent :
    (∃ sequential, heldStore.connectAll respendTransitions = .ok sequential) ∧
      ∀ engine, ∃ sequential, connectAll engine heldBase (.fresh heldBase) respendTransitions = .ok sequential := by
  have replaces : ReplacesOnlySpent heldStore.coins.lookup [] respendTransitions :=
    ⟨nofun, fun _ listed _ => listed, trivial⟩
  have visibly : ReplacesOnlySpent ((fresh heldBase).tables.visible heldBase) []
      respendTransitions :=
    ⟨nofun, fun _ listed _ => listed, trivial⟩
  refine ⟨((commitConnectBatch_sound_iff (fun _ => (0, 0)) .mdbx heldBase _).1 heldStore respentStore rfl
    rfl).mpr replaces, fun engine => ?_⟩
  have accepted : commitConnectBatch engine heldBase (.fresh heldBase) respendTransitions = .ok respentOverlay := by
    cases engine <;> rfl
  exact ((commitConnectBatch_sound_iff (fun _ => (0, 0)) engine heldBase _).2.1 _ _
    (fresh_consistent heldBase) accepted).mpr visibly

def hidingTransitions : Transitions :=
  [⟨⟨7⟩, ⟨8, ⟨8⟩⟩, [], [(heldKey, ⟨20, 8, true, 0, 0, []⟩)], [⟨[], [heldKey]⟩]⟩,
    ⟨⟨8⟩, ⟨9, ⟨9⟩⟩, [heldKey], [], [⟨[(heldKey, ⟨20, 8, true, 0, 0, []⟩)], []⟩]⟩]

/-- The batch is accepted, the transitions one by one are not: the first creates an unspent outpoint. -/
theorem commitConnectBatch_hides_duplicate :
    ((∃ final, heldStore.commitConnectBatch (fun _ => (0, 0)) hidingTransitions = .ok final) ∧
      heldStore.connectAll hidingTransitions = .error (.utxo (.duplicate heldKey))) ∧ ∀ engine,
      (∃ final, commitConnectBatch engine heldBase (.fresh heldBase) hidingTransitions =
        .ok final) ∧ connectAll engine heldBase (.fresh heldBase) hidingTransitions =
        .error (.utxo (.duplicate heldKey)) := by
  refine ⟨⟨⟨_, rfl⟩, rfl⟩, fun engine => ?_⟩
  cases engine
  · exact ⟨⟨_, rfl⟩, rfl⟩
  · exact ⟨⟨_, rfl⟩, rfl⟩

open Edit List Function Utxo

/-- The plain map of a run, and the map before each block above the base, the last block first. -/
structure PlainChain where
  coins : CoinMap
  before : List CoinMap

def PlainChain.connect (plain : PlainChain) (transition : ConnectTransition) : PlainChain :=
  ⟨applyAll plain.coins transition.edits, plain.coins :: plain.before⟩

/-- A call that writes to the store. The coin lists of the blocks of a folded commit are not read. -/
inductive OverlayCall where
  | connect (transition : ConnectTransition)
  | batch (transitions : Transitions)
  | folded (headers : Transitions) (spent : List OutPointKey) (created : List CoinEntry)
  | disconnect (expectedCurrent parent : ExecutionTip) (spent : List OutPointKey)
      (created : List CoinEntry)

namespace OverlayStore

variable (engine : OverlayEngine) (base : SnapshotBase) (store : OverlayStore)

def perform : OverlayCall → Except ChainStoreError OverlayStore
  | .connect transition => store.connectOne engine base transition
  | .batch transitions => store.commitConnectBatch engine base transitions
  | .folded headers spent created => store.commitConnectFolded engine base headers spent created
  | .disconnect expectedCurrent parent spent created => do
      let (committed, _) ← store.commitDisconnect base expectedCurrent parent spent created
      return committed

/-- What a call leaves: a refused one aborts its storage transaction. -/
def afterCall (call : OverlayCall) : OverlayStore :=
  match store.perform engine base call with
  | .ok next => next
  | .error _ => store

end OverlayStore

def blockHeader (transition : ConnectTransition) : BlockHash × ExecutionTip × List UtxoUndo :=
  (transition.expectedParent, transition.next, transition.transactionUndos)

def CreatesAtHeight (transition : ConnectTransition) : Prop :=
  ∀ coin ∈ transition.created, coin.2.height = transition.next.height

section
variable (engine : OverlayEngine) (base : SnapshotBase) (allows : OverlayStore → Transitions → Prop)

/-- What a call means for the plain map. A disconnect takes it back to the one before the block. -/
inductive Means (store : OverlayStore) (plain : PlainChain) : OverlayCall → PlainChain → Prop
  | connect {transition} (heights : CreatesAtHeight transition) :
      Means store plain (.connect transition) (plain.connect transition)
  | batch {transitions} (heights : ∀ transition ∈ transitions, CreatesAtHeight transition)
      (allowed : allows store transitions) :
      Means store plain (.batch transitions) (transitions.foldl .connect plain)
  | folded {headers blocks change spent created}
      (heights : ∀ transition ∈ blocks, CreatesAtHeight transition) (allowed : allows store blocks)
      (same : headers.map blockHeader = blocks.map blockHeader)
      (folds : foldOutcome foldTransition ∅ blocks = .ok change) (lists : change.Lists spent created) :
      Means store plain (.folded headers spent created) (blocks.foldl .connect plain)
  | disconnect {expectedCurrent parent spent created previous rest} (connected : plain.before = previous :: rest)
      (fits : Edit.FitsAll plain.coins (ofLists spent created))
      (undone : SameCoins (applyAll plain.coins (ofLists spent created)) previous) :
      Means store plain (.disconnect expectedCurrent parent spent created)
        ⟨applyAll plain.coins (ofLists spent created), rest⟩

/-- A run from the fresh store, with the plain chain its accepted calls mean. -/
inductive Reached : OverlayStore → PlainChain → Prop
  | fresh : Reached (.fresh base) ⟨base.view, []⟩
  | accepted {store final plain plain' call} (reached : Reached store plain)
      (means : Means allows store plain call plain')
      (performed : store.perform engine base call = .ok final) : Reached final plain'
  | refused {store plain call error} (reached : Reached store plain)
      (failed : store.perform engine base call = .error error) : Reached (store.afterCall engine base call) plain

end

/-- A batch that creates no outpoint over a visible coin that it has not spent. -/
def ReplacesOnlyVisible (base : SnapshotBase) (store : OverlayStore) (transitions : Transitions) : Prop :=
  ReplacesOnlySpent (store.tables.visible base) [] transitions

def OnlyBaseBelow (base : SnapshotBase) (coins : CoinMap) : Prop :=
  ∀ key coin, coins key = some coin → coin.height ≤ base.height → (base.view key).map untouched = some coin.untouched

/-- The store shows the plain map, and only the base's coins have base heights in any map of the run. -/
structure Refines (base : SnapshotBase) (store : OverlayStore) (plain : PlainChain) : Prop where
  consistent : store.tables.Consistent base
  same : SameCoins (store.tables.visible base) plain.coins
  height : store.tip.height = base.height + plain.before.length
  below : ∀ coins ∈ plain.coins :: plain.before, OnlyBaseBelow base coins

section
variable {engine : OverlayEngine} {base : SnapshotBase} {store final : OverlayStore} {plain : PlainChain}

theorem refines_fresh (base : SnapshotBase) : Refines base (.fresh base) ⟨base.view, []⟩ where
  consistent := fresh_consistent base
  same _ := rfl
  height := rfl
  below := by
    intro coins isView
    rw [mem_singleton.mp isView]
    intro key coin found _
    exact congrArg (Option.map untouched) found

theorem OnlyBaseBelow.congr {left right : CoinMap} (below : OnlyBaseBelow base left)
    (same : SameCoins right left) : OnlyBaseBelow base right := by
  intro key coin found low
  have equal := same key
  rw [found] at equal
  obtain ⟨other, isOther, alike⟩ := Option.map_eq_some_iff.mp equal.symm
  have sameHeight : other.untouched.height = coin.untouched.height := congrArg height alike
  rw [below key other isOther (sameHeight.trans_le low), alike]

theorem OnlyBaseBelow.applyAll {coins : CoinMap} {edits : List (Edit OutPointKey Utxo)}
    (below : OnlyBaseBelow base coins) (above : ∀ key coin, insert key coin ∈ edits → base.height < coin.height) :
    OnlyBaseBelow base (applyAll coins edits) := by
  induction edits generalizing coins with
  | nil => exact below
  | cons edit _ ih =>
    refine ih (fun key coin found low => ?_) fun key coin member => above key coin (.tail _ member)
    rw [apply_eq, update_apply] at found
    split at found
    · cases edit with
      | remove _ => cases found
      | insert inserted _ =>
        cases found
        exact absurd (above inserted coin mem_cons_self) low.not_gt
    · exact below key coin found low

theorem Refines.connectOne {transition : ConnectTransition} (refines : Refines base store plain)
    (heights : CreatesAtHeight transition) (performed : store.connectOne engine base transition = .ok final) :
    Refines base final (plain.connect transition) := by
  obtain ⟨-, becomes, advances, -⟩ := (connectOne_eq_ok refines.consistent).mp performed
  obtain ⟨first, isTip⟩ := advanceTips_cons.mp advances
  have nextHeight := (checkedAdd_eq_some.mp first.height).2
  have grown := refines.height
  refine ⟨becomes.consistent, ?_, ?_, ?_⟩
  · rw [becomes.visible]
    exact map_applyAll_congr refines.same _
  · rw [← Except.ok.inj isTip, PlainChain.connect, length_cons]
    omega
  refine forall_mem_cons.mpr ⟨?_, refines.below⟩
  refine (refines.below _ mem_cons_self).applyAll fun key coin inserted => ?_
  rw [heights (key, coin) (mem_created_of_insert inserted)]
  omega

theorem Refines.connectAll {transitions : Transitions} (refines : Refines base store plain)
    (heights : ∀ transition ∈ transitions, CreatesAtHeight transition)
    (performed : store.connectAll engine base transitions = .ok final) :
    Refines base final (transitions.foldl .connect plain) := by
  induction transitions generalizing store plain with
  | nil =>
    cases performed
    exact refines
  | cons _ _ ih =>
    obtain ⟨first, others⟩ := forall_mem_cons.mp heights
    rw [connectAll, foldOutcome_cons, bind_eq_ok] at performed
    obtain ⟨_, isNext, remaining⟩ := performed
    exact ih (refines.connectOne first isNext) others remaining

variable {blocks : Transitions} {spent : List OutPointKey} {created : List CoinEntry}

theorem commitConnectFolded_congr {headers : Transitions}
    (same : headers.map blockHeader = blocks.map blockHeader) :
    store.commitConnectFolded engine base headers spent created =
      store.commitConnectFolded engine base blocks spent created := by
  have recorded : foldOutcome recordBlock store headers = foldOutcome recordBlock store blocks := by
    induction headers generalizing blocks store with
    | nil =>
      rw [map_nil, eq_comm, map_eq_nil_iff] at same
      rw [same]
    | cons header _ ih =>
      cases blocks with
      | nil => cases same
      | cons block _ =>
        obtain ⟨first, later⟩ := List.cons.inj same
        have sameBlock : ∀ store, recordBlock store header = recordBlock store block := by
          obtain ⟨parent, tipAndUndos⟩ := Prod.mk.inj first
          obtain ⟨tip, undos⟩ := Prod.mk.inj tipAndUndos
          intro store
          rw [recordBlock, recordBlock, parent, tip, undos]
        rw [foldOutcome_cons, foldOutcome_cons, sameBlock]
        cases recordBlock store block with
        | error _ => rfl
        | ok _ => exact ih later
  have empty : headers = [] ↔ blocks = [] := by
    rw [← map_eq_nil_iff, same, map_eq_nil_iff]
  simp [commitConnectFolded, recorded, empty]

theorem Refines.folded {change : NetChange OutPointKey Utxo} (refines : Refines base store plain)
    (heights : ∀ transition ∈ blocks, CreatesAtHeight transition) (allowed : ReplacesOnlyVisible base store blocks)
    (folds : foldOutcome foldTransition ∅ blocks = .ok change) (lists : change.Lists spent created)
    (performed : store.commitConnectFolded engine base blocks spent created = .ok final) :
    Refines base final (blocks.foldl .connect plain) := by
  by_cases some : blocks = []
  · subst some
    cases performed
    exact refines
  · exact refines.connectAll heights ((connectAll_iff_commitConnectFolded refines.consistent
      some folds lists).mpr ⟨performed, allowed⟩)

end

section
open CoinTables

variable {base : SnapshotBase} {tables final : CoinTables}

theorem foldOutcome_removeOne {removing removed : CoinTables × List CoinEntry}
    {keys : List OutPointKey} (consistent : removing.1.Consistent base)
    (loop : foldOutcome (removeOne base) removing keys = .ok removed) :
    Becomes base removing.1 (keys.map .remove) removed.1 := by
  induction keys generalizing removing with
  | nil =>
    cases loop
    exact becomes_nil consistent
  | cons key _ ih =>
    simp only [foldOutcome_cons, removeOne, bind_eq_ok, pure_eq_ok] at loop
    obtain ⟨_, ⟨result, isResult, rfl⟩, remaining⟩ := loop
    have first := ((removeVisible_spec consistent key).1 result isResult).2
    exact first.append (ih first.consistent remaining)

/-- Restoring a coin under a key that shows none makes it visible: in the overlay, or by lifting the
tombstone of the base coin it is. -/
theorem restoreOne_spec {coin : CoinEntry} (consistent : tables.Consistent base)
    (hidden : tables.visible base coin.1 = none) (below : coin.2.height ≤ base.height →
      (base.view coin.1).map untouched = some coin.2.untouched)
    (restored : restoreOne base tables coin = .ok final) : final.Consistent base ∧
      SameCoins (final.visible base) (update (tables.visible base) coin.1 (some coin.2)) := by
  unfold restoreOne at restored
  split at restored
  · simp only [bind_eq_ok, ensure_eq_ok, exists_const, pure_eq_ok] at restored
    obtain ⟨-, rfl⟩ := restored
    have becomes := becomes_insert consistent hidden
    refine ⟨becomes.consistent, fun key => ?_⟩
    rw [becomes.visible]
    rfl
  · next low =>
    simp only [bind_eq_ok, ensure_eq_ok, exists_const, pure_eq_ok] at restored
    obtain ⟨-, rfl⟩ := restored
    obtain ⟨absent, -⟩ := visible_eq_none.mp hidden
    refine ⟨⟨fun key buried => consistent.tombstones_base key (Finset.mem_of_mem_erase buried),
      fun key written inBase => ?_⟩, fun key => ?_⟩
    · refine Finset.mem_erase.mpr ⟨?_, consistent.shadowed key written inBase⟩
      rintro rfl
      exact written absent
    by_cases same : key = coin.1
    · have lifted : CoinTables.visible base
          { tables with tombstones := tables.tombstones.erase coin.1 } coin.1 = base.view coin.1 :=
        visible_of_base absent (Finset.notMem_erase _ _)
      rw [same, update_self, lifted]
      exact below (not_lt.mp low)
    · simp [visible, same]

theorem foldOutcome_restoreOne {created : List CoinEntry} (consistent : tables.Consistent base)
    (nodup : (created.map Prod.fst).Nodup) (hidden : ∀ key ∈ created.map Prod.fst, tables.visible base key = none)
    (below : ∀ coin ∈ created, coin.2.height ≤ base.height → (base.view coin.1).map untouched = some coin.2.untouched)
    (restored : foldOutcome (restoreOne base) tables created = .ok final) :
    final.Consistent base ∧ SameCoins (final.visible base) (applyAll (tables.visible base) (created.map ofEntry)) := by
  induction created generalizing tables with
  | nil =>
    cases restored
    exact ⟨consistent, fun _ => rfl⟩
  | cons coin rest ih =>
    obtain ⟨apart, restNodup⟩ := nodup_cons.mp nodup
    obtain ⟨first, others⟩ := forall_mem_cons.mp below
    rw [foldOutcome_cons, bind_eq_ok] at restored
    obtain ⟨next, isNext, remaining⟩ := restored
    obtain ⟨nextConsistent, shown⟩ := restoreOne_spec consistent (hidden coin.1 mem_cons_self) first isNext
    have stillHidden : ∀ key ∈ rest.map Prod.fst, next.visible base key = none := fun key later => by
      rw [shown.eq_none, update_of_ne (ne_of_mem_of_not_mem later apart)]
      exact hidden key (.tail _ later)
    obtain ⟨finalConsistent, finalShown⟩ := ih nextConsistent restNodup stillHidden others remaining
    exact ⟨finalConsistent, fun key => (finalShown key).trans (map_applyAll_congr shown _ key)⟩

theorem Refines.disconnect {store store' : OverlayStore} {plain : PlainChain} {previous : CoinMap} {rest : List CoinMap}
    {expectedCurrent parent : ExecutionTip} {spent : List OutPointKey} {created : List CoinEntry} {undo : UtxoUndo}
    (refines : Refines base store plain) (connected : plain.before = previous :: rest)
    (fits : Edit.FitsAll plain.coins (ofLists spent created))
    (undone : SameCoins (applyAll plain.coins (ofLists spent created)) previous)
    (performed : store.commitDisconnect base expectedCurrent parent spent created = .ok (store', undo)) :
    Refines base store' ⟨applyAll plain.coins (ofLists spent created), rest⟩ := by
  simp only [commitDisconnect, disconnectMutation, rewindTip, bind_eq_ok, mapError_eq_ok,
    ensure_eq_ok, exists_const, pure_eq_ok] at performed
  obtain ⟨_, ⟨⟨-, counted⟩, rfl⟩, -, _, ⟨removed, removing, restored, restoring, rfl⟩, -, rfl, -⟩ := performed
  obtain ⟨-, insertFits⟩ := fitsAll_append.mp fits
  obtain ⟨nodup, free⟩ := fitsAll_inserts.mp insertFits
  have removes := foldOutcome_removeOne refines.consistent removing
  have shown : SameCoins (removed.1.visible base) (applyAll plain.coins (spent.map .remove)) := by
    rw [removes.visible]
    exact map_applyAll_congr refines.same _
  have below : OnlyBaseBelow base (applyAll plain.coins (ofLists spent created)) := by
    refine (refines.below previous ?_).congr undone
    rw [connected]
    exact .tail _ mem_cons_self
  have restores := foldOutcome_restoreOne removes.consistent nodup
    (fun key listed => (shown.eq_none key).mpr (free key listed)) (fun coin listed => ?_) restoring
  · refine ⟨restores.1, fun key => ?_, ?_, forall_mem_cons.mpr ⟨below, fun coins later => ?_⟩⟩
    · rw [ofLists, applyAll_append]
      exact (restores.2 key).trans (map_applyAll_congr shown _ key)
    · have parentHeight := (checkedAdd_eq_some.mp counted).2
      have grown := refines.height
      rw [connected, length_cons] at grown
      change parent.height = base.height + rest.length
      omega
    · refine refines.below coins ?_
      rw [connected]
      exact .tail _ (.tail _ later)
  · -- The restored coin stands in the map before the block, so a base height makes it the base's own.
    refine below coin.1 coin.2 ?_
    rw [applyAll_ofLists _ _ nodup, Table.lookup_ofList_of_mem nodup listed]
    rfl

end

section
variable {engine : OverlayEngine} {base : SnapshotBase} {store : OverlayStore} {plain : PlainChain}

theorem afterCall_of_error {call : OverlayCall} {error : ChainStoreError}
    (failed : store.perform engine base call = .error error) : store.afterCall engine base call = store := by
  rw [afterCall, failed]

theorem Reached.refines (reached : Reached engine base (ReplacesOnlyVisible base) store plain) :
    Refines base store plain := by
  induction reached with
  | fresh => exact refines_fresh base
  | accepted _ means performed ih =>
    cases means with
    | connect heights => exact ih.connectOne heights performed
    | batch heights allowed =>
      exact ih.connectAll heights ((connectAll_iff_commitConnectBatch ih.consistent).mpr ⟨performed, allowed⟩)
    | folded heights allowed same folds lists =>
      exact ih.folded heights allowed folds lists ((commitConnectFolded_congr same).symm.trans performed)
    | disconnect connected fits undone =>
      obtain ⟨⟨_, _⟩, isCommitted, same⟩ := bind_eq_ok.mp performed
      cases same
      exact ih.disconnect connected fits undone isCommitted
  | refused _ failed _ => rwa [afterCall_of_error failed]

/-- Runs whose batches create no outpoint over a visible coin they have not spent refine the plain
map, up to the times of the last touch. -/
theorem overlay_refines_plain_map (reached : Reached engine base (ReplacesOnlyVisible base) store plain) :
    (∀ key, ∃ found, store.get base key = .ok found ∧ found.map untouched = (plain.coins key).map untouched) ∧
    (∀ keys, store.getMany base keys = keys.mapM fun key => do
      let found ← store.get base key
      return (key, found)) ∧ (∀ key ∈ store.tombstones, base.coins.lookup key ≠ none) ∧
    (∀ key, store.overlay.lookup key ≠ none → base.coins.lookup key ≠ none → key ∈ store.tombstones) ∧
    (∃ shown : Finset OutPointKey, (∀ key, key ∈ shown ↔ store.get base key ≠ .ok none) ∧
      shown.card = base.coins.keys.card - store.tombstones.card + store.overlay.keys.card ∧
      (store.tierStats base).1 + (store.tierStats base).2 = shown.card) ∧
    ∀ call error, store.perform engine base call = .error error → store.afterCall engine base call = store := by
  have refines := reached.refines
  refine ⟨fun key => ⟨_, store.get_eq base key, refines.same key⟩, fun keys => ?_,
    refines.consistent.tombstones_base, refines.consistent.shadowed, ?_, fun call error => afterCall_of_error⟩
  · simp only [store.get_eq base]
    rw [store.getMany_eq]
    exact (mapM_pure (m := Except UtxoError)).symm
  · obtain ⟨shown, isShown, counted⟩ := exists_visible_card refines.consistent
    refine ⟨shown, fun key => ?_, counted, ?_⟩
    · rw [isShown, store.get_eq, ne_eq, ne_eq, Except.ok.injEq]
    · rw [counted, tierStats, Nat.add_comm]

end

/-- The plain maps after a block that spends the base's coin and a block that creates the outpoint
again. -/
def respentPlain : PlainChain := respendTransitions.foldl .connect ⟨heldBase.view, []⟩

def unrecreatedPlain : PlainChain :=
  ⟨applyAll respentPlain.coins [.remove heldKey], [heldBase.view]⟩

def unspentPlain : PlainChain := ⟨applyAll unrecreatedPlain.coins [.insert heldKey heldCoin], []⟩

def unrecreatedOverlay : OverlayStore :=
  ⟨∅, insert heldKey ∅, Table.ofList [(⟨8⟩, [⟨[(heldKey, heldCoin)], []⟩])], ⟨8, ⟨8⟩⟩⟩

theorem respent_reached (engine : OverlayEngine) :
    Reached engine heldBase (ReplacesOnlyVisible heldBase) respentOverlay respentPlain := by
  have heights : ∀ transition ∈ respendTransitions, CreatesAtHeight transition := by
    simp [respendTransitions, CreatesAtHeight]
  have allowed : ReplacesOnlyVisible heldBase (.fresh heldBase) respendTransitions :=
    ⟨nofun, fun _ listed _ => listed, trivial⟩
  have performed : perform engine heldBase (.fresh heldBase) (.batch respendTransitions) = .ok respentOverlay := by
    cases engine <;> rfl
  exact .accepted .fresh (.batch heights allowed) performed

theorem unrecreatedPlain_coins : unrecreatedPlain.coins = update heldBase.view heldKey none :=
  (update_idem ..).trans (update_idem ..)

theorem unspentPlain_coins : unspentPlain.coins = heldBase.view := by
  change update unrecreatedPlain.coins heldKey (some heldCoin) = _
  rw [unrecreatedPlain_coins, update_idem]
  exact update_eq_self heldKey heldBase.view

theorem unspent_reached (engine : OverlayEngine) :
    Reached engine heldBase (ReplacesOnlyVisible heldBase) (.fresh heldBase) unspentPlain := by
  have recreationUndone : Means (ReplacesOnlyVisible heldBase) respentOverlay respentPlain
      (.disconnect ⟨9, ⟨9⟩⟩ ⟨8, ⟨8⟩⟩ [heldKey] []) unrecreatedPlain := by
    refine .disconnect rfl ⟨Option.some_ne_none _, trivial⟩ fun key => ?_
    exact congrArg (Option.map untouched) (congrFun unrecreatedPlain_coins key)
  have spendUndone : Means (ReplacesOnlyVisible heldBase) unrecreatedOverlay unrecreatedPlain
      (.disconnect ⟨8, ⟨8⟩⟩ ⟨7, ⟨7⟩⟩ [] [(heldKey, heldCoin)]) unspentPlain := by
    refine .disconnect rfl ⟨rfl, trivial⟩ fun key => ?_
    exact congrArg (Option.map untouched) (congrFun unspentPlain_coins key)
  have performed : perform engine heldBase respentOverlay
      (.disconnect ⟨9, ⟨9⟩⟩ ⟨8, ⟨8⟩⟩ [heldKey] []) = .ok unrecreatedOverlay := rfl
  have last : perform engine heldBase unrecreatedOverlay
      (.disconnect ⟨8, ⟨8⟩⟩ ⟨7, ⟨7⟩⟩ [] [(heldKey, heldCoin)]) = .ok (.fresh heldBase) := rfl
  exact .accepted (.accepted (respent_reached engine) recreationUndone performed) spendUndone last

/-- Spent, created again, and both undone: the base coin shows. -/
theorem overlay_refines_plain_map_undone : unspentPlain.coins heldKey = some heldCoin ∧
      (∃ found, get heldBase (.fresh heldBase) heldKey = .ok found ∧ found.map untouched = some heldCoin.untouched) ∧
      getMany heldBase (.fresh heldBase) [heldKey, heldKey] = [heldKey, heldKey].mapM fun key => do
          let found ← get heldBase (.fresh heldBase) key
          return (key, found) :=
  ⟨rfl, (overlay_refines_plain_map (unspent_reached .mdbx)).1 heldKey,
    (overlay_refines_plain_map (unspent_reached .redb)).2.1 [heldKey, heldKey]⟩

/-- A batch creates an outpoint over the base coin and spends it; the store shows the base coin again. -/
theorem overlay_shows_replaced_coin : (∃ store plain, Reached .mdbx heldBase (fun _ _ => True) store plain ∧
      store.get heldBase heldKey = .ok (some heldCoin) ∧ plain.coins heldKey = none) ∧
    ∃ store plain, Reached .redb heldBase (fun _ _ => True) store plain ∧
      store.get heldBase heldKey = .ok (some heldCoin) ∧ plain.coins heldKey = none := by
  have heights : ∀ transition ∈ hidingTransitions, CreatesAtHeight transition := by
    simp [hidingTransitions, CreatesAtHeight]
  exact ⟨⟨_, _, .accepted .fresh (.batch heights trivial) rfl, rfl, rfl⟩,
    ⟨_, _, .accepted .fresh (.batch heights trivial) rfl, rfl, rfl⟩⟩

section
variable {engine engine' : OverlayEngine} {base : SnapshotBase} {store final : OverlayStore} {plain : PlainChain}

theorem perform_engine (consistent : store.tables.Consistent base) {call : OverlayCall} :
    store.perform engine base call = .ok final ↔ store.perform engine' base call = .ok final := by
  have foldedAlike {headers : Transitions} {spent : List OutPointKey} {created : List CoinEntry} :
      store.commitConnectFolded engine base headers spent created = .ok final ↔
        store.commitConnectFolded engine' base headers spent created = .ok final := by
    by_cases empty : headers = []
    · simp [commitConnectFolded, empty]
    · rw [commitConnectFolded_eq_ok consistent empty, commitConnectFolded_eq_ok consistent empty]
  cases call with
  | connect _ => simp only [perform, connectOne_eq_ok consistent]
  | batch transitions =>
    simp only [perform, commitConnectBatch]
    split
    · rfl
    · simp only [bind_eq_ok, foldedAlike]
  | folded _ _ _ => exact foldedAlike
  | disconnect _ _ _ _ => exact Iff.rfl

/-- A run of one engine is a run of the other: both take the same calls, to the same tables. -/
theorem engines_interchangeable (engine' : OverlayEngine)
    (reached : Reached engine base (ReplacesOnlyVisible base) store plain) :
    Reached engine' base (ReplacesOnlyVisible base) store plain ∧ ∀ call final,
      store.perform engine base call = .ok final ↔ store.perform engine' base call = .ok final := by
  apply And.intro
  · induction reached with
    | fresh => exact .fresh
    | accepted earlier means performed ih =>
      exact .accepted ih means ((perform_engine earlier.refines.consistent).mp performed)
    | refused _ failed ih =>
      rw [afterCall_of_error failed]
      exact ih
  · exact fun _ _ => perform_engine reached.refines.consistent

theorem engines_interchangeable_respent :
    Reached .redb heldBase (ReplacesOnlyVisible heldBase) respentOverlay respentPlain ∧ ∀ call final,
      respentOverlay.perform .mdbx heldBase call = .ok final ↔ respentOverlay.perform .redb heldBase call = .ok final :=
  engines_interchangeable .redb (respent_reached .mdbx)

end

end Rbtc.SnapshotOverlay
