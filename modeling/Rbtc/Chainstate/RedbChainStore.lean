import Rbtc.Chainstate.SpentAges
import Rbtc.Chainstate.ValidationJournal
import Rbtc.Foundation.Edits

/-! The redb chain store whole: with the spent-age histogram and the validation delta journal. A batch
commit applies the net change of its edits; single commits apply them one by one. -/

namespace Rbtc.Chainstate

open Foundation Bitcoin

/-- `coins` are the base tables. A store in journal mode keeps its journal there even when it has no
rows. -/
@[ext] structure RedbChainStore extends ChainStore where
  ages : SpentAges
  tables : ValidationTables
  journal : Option ValidationJournal
  deriving DecidableEq

def undoneHeights (transitions : Transitions) : List (Nat × List UtxoUndo) :=
  transitions.map fun transition => (transition.next.height, transition.transactionUndos)

def recordUndos (retain : Bool) (undos : Table BlockHash (List UtxoUndo))
    (transitions : Transitions) : Except ChainStoreError (Table BlockHash (List UtxoUndo)) :=
  foldOutcome (fun undos (transition : ConnectTransition) =>
    ChainStore.recordUndo retain undos transition.next.hash transition.transactionUndos) undos transitions

def advanceTips (target : Option ExecutionTip) (tip : ExecutionTip)
    (transitions : Transitions) : Except ChainStoreError ExecutionTip :=
  foldOutcome (fun tip (transition : ConnectTransition) =>
    (advanceTip target tip transition.expectedParent transition.next).mapError
      ChainStoreError.execution) tip transitions

namespace RedbChainStore

variable (bloomHashes : OutPointKey → UInt64 × UInt64) (store : RedbChainStore) (expectedParent : BlockHash)
  (next expectedCurrent parent : ExecutionTip) (spent : List OutPointKey) (created : List CoinEntry)
  (transactionUndos : List UtxoUndo)

def materializeValidationDeltas :
    Except ChainStoreError (RedbChainStore × Nat) :=
  match store.journal with
  | none => .ok (store, 0)
  | some journal =>
    if journal.rows = [] then .ok (store, 0)
    else do
      let merged ← (foldOutcome (mergeRow store.tables) ∅ journal.rows).mapError .utxo
      let coins ← (applyValidatedChanges store.coins (spentOf merged) (createdOf merged)).mapError .utxo
      return ({ store with
          coins
          tables := .empty
          journal := some { journal with rows := [], groups := [] } }, merged.keys.card)

def commitConnect : Except ChainStoreError (RedbChainStore × UtxoUndo) := do
  ensure (store.journal = none) (.utxo (.malformed "validation journal requires atomic checkpoint commits"))
  let ((connected, ages), undo) ← store.connectWith (spentAgeCounts [(next.height, transactionUndos)])
    (connectSpentAges store.ages · next.height next.height) expectedParent next spent created transactionUndos
  return ({ store with toChainStore := connected, ages }, undo)

/-- The net change of a batch goes to the journal, or to the coins in a store without one. -/
def writeChanges (finalHeight : Nat) (spent : List OutPointKey) (created : List CoinEntry) :
    Except UtxoError RedbChainStore :=
  match store.journal with
  | some journal => do
      let utxoCount ← journal.nextUtxoCount spent.length created.length
      let (tables, journal) ← journal.appendRow bloomHashes store.tables finalHeight
        (foldValidationUpdates spent created) utxoCount
      return { store with tables, journal := some journal }
  | none => do
      let coins ← applyValidatedChanges store.coins spent created
      return { store with coins }

def commitConnectBatch (transitions : Transitions) : Except ChainStoreError RedbChainStore :=
  match transitions with
  | [] => .ok store
  | first :: _ => do
      let finalHeight := (transitions.getLast?.getD first).next.height
      let change ← (foldOutcome foldTransition ∅ transitions).mapError .utxo
      let counts ← (spentAgeCounts (undoneHeights transitions)).mapError .utxo
      let written ← (store.writeChanges bloomHashes finalHeight (sortedKeys change.spent)
        (sortedEntries change.created)).mapError .utxo
      let undos ← recordUndos store.retainBlockUndo store.undos transitions
      let tip ← advanceTips store.validationTarget store.tip transitions
      let ages ← (connectSpentAges store.ages counts first.next.height finalHeight).mapError .utxo
      return { written with undos, tip, ages }

def disconnectMaterialized : Except ChainStoreError (RedbChainStore × UtxoUndo) := do
  let ((disconnected, ages), undo) ← store.disconnectWith (spentAgeCounts [(expectedCurrent.height, transactionUndos)])
    (disconnectSpentAges store.ages · expectedCurrent.height parent.height) expectedCurrent parent spent created
  return ({ store with toChainStore := disconnected, ages }, undo)

/-- The rows are materialized in a transaction of their own, which a refused disconnect leaves. -/
def commitDisconnect : Except ChainStoreError (RedbChainStore × UtxoUndo) := do
  let (materialized, _) ← store.materializeValidationDeltas
  materialized.disconnectMaterialized expectedCurrent parent spent created transactionUndos

end RedbChainStore

open NetChange Edit Table List ConnectTransition

def ConnectTransition.edits (transition : ConnectTransition) : List (Edit OutPointKey Utxo) :=
  ofLists transition.spent transition.created

def batchEdits (transitions : Transitions) : List (Edit OutPointKey Utxo) :=
  transitions.flatMap edits

theorem batchEdits_cons (transition : ConnectTransition) (rest : Transitions) :
    batchEdits (transition :: rest) = transition.edits ++ batchEdits rest :=
  flatMap_cons

variable {coins coins' : CoinTable}

def applyTransition (coins : CoinTable) (transition : ConnectTransition) :
    Except UtxoError CoinTable := do
  let (coins, _) ← applyWithUndo coins transition.spent transition.created
  return coins

theorem applyTransition_eq_ok {transition : ConnectTransition} :
    applyTransition coins transition = .ok coins' ↔ Edit.FitsAll coins.lookup transition.edits ∧
        coins'.lookup = applyAll coins.lookup transition.edits := by
  simp only [applyTransition, bind_eq_ok, applyWithUndo_eq_ok, pure_eq_ok]
  constructor
  · rintro ⟨_, ⟨applicable, rfl⟩, rfl⟩
    exact ⟨fitsAll_ofLists.mpr applicable, lookup_applied _ _ applicable.created_nodup⟩
  rintro ⟨fits, result⟩
  have applicable := fitsAll_ofLists.mp fits
  refine ⟨_, ⟨applicable, rfl⟩, ext_lookup fun key => ?_⟩
  rw [result, edits, lookup_applied _ _ applicable.created_nodup]

theorem foldOutcome_applyTransition {transitions : Transitions} :
    foldOutcome applyTransition coins transitions = .ok coins' ↔ Edit.FitsAll coins.lookup (batchEdits transitions) ∧
        coins'.lookup = applyAll coins.lookup (batchEdits transitions) := by
  induction transitions generalizing coins with
  | nil =>
    simp only [foldOutcome_nil, Except.ok.injEq, batchEdits, flatMap_nil, Edit.FitsAll, true_and]
    exact ⟨fun same => same ▸ rfl, fun same => ext_lookup fun key => (congrFun same key).symm⟩
  | cons transition _ ih =>
    simp only [foldOutcome_cons, bind_eq_ok, applyTransition_eq_ok, ih, batchEdits_cons,
      fitsAll_append, applyAll_append]
    constructor
    · rintro ⟨_, ⟨fits, result⟩, restFits, final⟩
      rw [result] at restFits final
      exact ⟨⟨fits, restFits⟩, final⟩
    rintro ⟨⟨fits, restFits⟩, final⟩
    have result := lookup_applied coins transition.spent (fitsAll_ofLists.mp fits).created_nodup
    refine ⟨_, ⟨fits, result⟩, ?_⟩
    rw [result]
    exact ⟨restFits, final⟩

section
variable {change change' : NetChange OutPointKey Utxo}

theorem foldSpent_eq_ok {key : OutPointKey} : foldSpent change key = .ok change' ↔
      change.Admits (.remove key) ∧ change' = change.edit (.remove key) := by
  unfold foldSpent NetChange.Admits edit
  split
  · next created => simp [created, eq_comm]
  · next uncreated =>
    simp only [bind_eq_ok, ensure_eq_ok, pure_eq_ok, exists_const, uncreated, false_or]
    exact and_congr Iff.rfl eq_comm

theorem foldCreated_eq_ok {coin : CoinEntry} : foldCreated change coin = .ok change' ↔
      change.Admits (.insert coin.1 coin.2) ∧ change' = change.edit (.insert coin.1 coin.2) := by
  simp only [foldCreated, bind_eq_ok, ensure_eq_ok, pure_eq_ok, exists_const]
  exact and_congr Iff.rfl eq_comm

theorem foldOutcome_edits {α : Type}
    {step : NetChange OutPointKey Utxo → α → Except UtxoError (NetChange OutPointKey Utxo)}
    (edit : α → Edit OutPointKey Utxo) (stepEdits : ∀ {change change' : NetChange OutPointKey Utxo} {item : α},
      step change item = .ok change' ↔ change.Admits (edit item) ∧ change' = change.edit (edit item))
    {items : List α} : foldOutcome step change items = .ok change' ↔
      change.AdmitsAll (items.map edit) ∧ change' = change.editAll (items.map edit) := by
  induction items generalizing change with
  | nil =>
    simp only [foldOutcome_nil, Except.ok.injEq, map_nil, NetChange.AdmitsAll, true_and]
    exact eq_comm
  | cons _ _ ih =>
    simp only [foldOutcome_cons, bind_eq_ok, stepEdits, ih, map_cons, NetChange.AdmitsAll, and_assoc,
      exists_and_left, exists_eq_left]
    rfl

theorem foldTransition_eq_ok {transition : ConnectTransition} : foldTransition change transition = .ok change' ↔
      change.AdmitsAll transition.edits ∧ change' = change.editAll transition.edits := by
  simp [foldTransition, foldOutcome_edits remove foldSpent_eq_ok, foldOutcome_edits ofEntry foldCreated_eq_ok, edits,
    ofLists, admitsAll_append, editAll_append, and_assoc]

theorem foldOutcome_foldTransition {transitions : Transitions} :
    foldOutcome foldTransition change transitions = .ok change' ↔
      change.AdmitsAll (batchEdits transitions) ∧ change' = change.editAll (batchEdits transitions) := by
  induction transitions generalizing change with
  | nil =>
    simp only [foldOutcome_nil, Except.ok.injEq, batchEdits, flatMap_nil, NetChange.AdmitsAll, true_and]
    exact eq_comm
  | cons _ _ ih =>
    simp [foldOutcome_cons, foldTransition_eq_ok, ih, batchEdits_cons, admitsAll_append, editAll_append, and_assoc]

end

section
variable {spent : List OutPointKey} {created : List CoinEntry}
  {coin : CoinEntry} {key : OutPointKey}

theorem eraseAll_insert (unspent : coin.1 ∉ spent) :
    (coins.insert coin.1 coin.2).eraseAll spent = (coins.eraseAll spent).insert coin.1 coin.2 := by
  ext key : 1
  rw [lookup_eraseAll, lookup_insert, lookup_insert, lookup_eraseAll]
  by_cases same : key = coin.1
  · rw [if_pos same, if_pos same, if_neg (same ▸ unspent)]
  · rw [if_neg same, if_neg same]

theorem applyValidatedWalk_eq_ok {rounds : Nat} (spentSorted : spent.Pairwise (· < ·))
    (createdSorted : KeySorted created) (enough : spent.length + created.length ≤ rounds) :
    oneTable.applyValidatedWalk rounds spent created coins = .ok coins' ↔
      Applicable coins.lookup spent created ∧ coins' = (coins.eraseAll spent).insertAll created := by
  have nothing coins : Applicable coins ([] : List OutPointKey) ([] : List CoinEntry) :=
    ⟨nodup_nil, by simp, nodup_nil, by simp⟩
  induction rounds generalizing coins spent created with
  | zero =>
    obtain ⟨rfl, rfl⟩ : spent = [] ∧ created = [] := by
      simpa using enough
    simp [CoinAccess.applyValidatedWalk, nothing, eraseAll, insertAll, eq_comm]
  | succ rounds ih =>
    have removing : ∀ {key rest}, spent = key :: rest → ((oneTable.take coins key >>= fun taken =>
          oneTable.applyValidatedWalk rounds rest created taken.1) = .ok coins' ↔
        Applicable coins.lookup spent created ∧ coins' = (coins.eraseAll spent).insertAll created) := by
      rintro key rest rfl
      rw [take_bind_eq_ok, applicable_cons_spent, and_assoc, ← lookup_erase_eq]
      exact and_congr_right fun _ => ih (pairwise_cons.mp spentSorted).2 createdSorted (by simp at enough; omega)
    have inserting : ∀ {coin rest}, created = coin :: rest → coin.1 ∉ spent →
        ((oneTable.create coins coin false >>= oneTable.applyValidatedWalk rounds spent rest) = .ok coins' ↔
          Applicable coins.lookup spent created ∧ coins' = (coins.eraseAll spent).insertAll created) := by
      rintro coin rest rfl unspent
      simp only [bind_eq_ok, create_eq_ok, applicable_cons_created unspent, Bool.false_eq_true, or_false,
        and_assoc, exists_and_left, exists_eq_left, lookup_insert_eq, eraseAll_insert unspent,
        ih spentSorted (pairwise_cons.mp createdSorted).2 (by simp at enough; omega)]
      rfl
    cases spent with
    | nil =>
      cases created with
      | nil => simp [CoinAccess.applyValidatedWalk, nothing, eraseAll, insertAll, eq_comm]
      | cons coin _ => exact inserting rfl not_mem_nil
    | cons _ restSpent =>
      cases created with
      | nil => exact removing rfl
      | cons coin restCreated =>
        rw [CoinAccess.applyValidatedWalk]
        split
        · exact removing rfl
        rename_i notBelow
        split
        · next same =>
          subst same
          obtain ⟨below, restSorted⟩ := pairwise_cons.mp spentSorted
          have apart : coin.1 ∉ restSpent := fun later => lt_irrefl coin.1 (below coin.1 later)
          refine (@take_bind_eq_ok _ _ _ (fun removed => oneTable.create removed coin true >>=
            oneTable.applyValidatedWalk rounds restSpent restCreated) _).trans ?_
          simp only [bind_eq_ok, create_eq_ok, applicable_cons_spent, applicable_cons_created apart, or_true,
            true_and, and_assoc, exists_eq_left, lookup_insert_eq, lookup_erase_eq, Function.update_self,
            ih restSorted (pairwise_cons.mp createdSorted).2 (by simp at enough; omega), eraseAll_insert apart]
          rfl
        · next distinct =>
          refine inserting rfl fun listed => ?_
          rcases mem_cons.mp listed with same | later
          · exact distinct same.symm
          · exact notBelow ((pairwise_cons.mp spentSorted).1 coin.1 later)

theorem applyValidatedChanges_eq_ok {change : NetChange OutPointKey Utxo} :
    applyValidatedChanges coins (sortedKeys change.spent) (sortedEntries change.created) = .ok coins' ↔
      change.Fits coins.lookup ∧ coins'.lookup = change.onto coins.lookup := by
  have lists := lists_sorted change
  rw [applyValidatedChanges, CoinAccess.applyValidatedChanges, applyValidatedWalk_eq_ok (pairwise_sortedKeys _)
    (keySorted_sortedEntries _) le_rfl, lists.applicable_iff, ← lists.applyAll_eq,
    ← lookup_applied _ _ lists.created_nodup]
  exact and_congr Iff.rfl ⟨fun same => same ▸ rfl, fun same => ext_lookup (congrFun same)⟩

end

/-- What a transition creates over an unspent coin is spent by that or an earlier transition. -/
def ReplacesOnlySpent (coins : CoinMap) : List OutPointKey → Transitions → Prop
  | _, [] => True
  | spentBefore, transition :: rest =>
    (∀ key ∈ transition.created.map Prod.fst, coins key ≠ none → key ∈ spentBefore ++ transition.spent) ∧
      ReplacesOnlySpent coins (spentBefore ++ transition.spent) rest

variable {transitions rest : Transitions} {target : Option ExecutionTip} {tip tip' : ExecutionTip}
    {first : ConnectTransition}

theorem replacesOnlySpent_iff {coins : CoinMap} {spentBefore : List OutPointKey} :
    ReplacesOnlySpent coins spentBefore transitions ↔ Edit.Unhidden coins spentBefore (batchEdits transitions) := by
  induction transitions generalizing spentBefore with
  | nil => exact Iff.rfl
  | cons _ _ ih =>
    rw [ReplacesOnlySpent, ih, batchEdits_cons, edits, ofLists, append_assoc, unhidden_removes, unhidden_inserts]

/-- One by one, the coins of a batch are accepted exactly when the batch is and it hides no unspent
coin; the coins left are the same. -/
theorem foldOutcome_applyTransition_iff : foldOutcome applyTransition coins transitions = .ok coins' ↔
      (∃ change, foldOutcome foldTransition ∅ transitions = .ok change ∧
        applyValidatedChanges coins (sortedKeys change.spent) (sortedEntries change.created) = .ok coins') ∧
      ReplacesOnlySpent coins.lookup [] transitions := by
  simp only [foldOutcome_applyTransition, foldOutcome_foldTransition, applyValidatedChanges_eq_ok,
    replacesOnlySpent_iff]
  constructor
  · rintro ⟨fits, result⟩
    obtain ⟨admits, netFits, unhidden⟩ := fitsAll_iff.mp fits
    rw [applyAll_eq_onto fits] at result
    exact ⟨⟨_, ⟨admits, rfl⟩, netFits, result⟩, unhidden⟩
  · rintro ⟨⟨_, ⟨admits, rfl⟩, netFits, result⟩, unhidden⟩
    have fits := fitsAll_iff.mpr ⟨admits, netFits, unhidden⟩
    rw [applyAll_eq_onto fits]
    exact ⟨fits, result⟩

def countTransition (ages : SpentAges) (transition : ConnectTransition) : Except UtxoError SpentAges :=
  countBlocks ages (undoneHeights [transition]) transition.next.height transition.next.height

theorem advanceTips_cons : advanceTips target tip (first :: rest) = .ok tip' ↔
      Advances target tip first.expectedParent first.next ∧ advanceTips target first.next rest = .ok tip' := by
  simp only [advanceTips, foldOutcome_cons, bind_eq_ok, mapError_eq_ok, advanceTip_eq_ok, and_assoc, exists_and_left,
    exists_eq_left]

theorem foldOutcome_countTransition {ages ages' : SpentAges}
    (advanced : advanceTips target tip (first :: rest) = .ok tip') :
    foldOutcome countTransition ages (first :: rest) = .ok ages' ↔
      countBlocks ages (undoneHeights (first :: rest)) first.next.height
        ((first :: rest).getLast?.getD first).next.height = .ok ages' := by
  induction rest generalizing first tip ages with
  | nil => simp [foldOutcome_cons, countTransition]
  | cons second others ih =>
    obtain ⟨-, remaining⟩ := advanceTips_cons.mp advanced
    have adjacent := (advanceTips_cons.mp remaining).1.height
    rw [foldOutcome_cons, show undoneHeights (first :: second :: others) =
      undoneHeights [first] ++ undoneHeights (second :: others) from rfl, ← countBlocks_append adjacent]
    simp only [bind_eq_ok, ih remaining]
    rfl

namespace RedbChainStore

variable (store : RedbChainStore)

def connectOne (transition : ConnectTransition) :
    Except ChainStoreError RedbChainStore := do
  let (committed, _) ← store.commitConnect transition.expectedParent transition.next transition.spent
    transition.created transition.transactionUndos
  return committed

def connectAll (transitions : Transitions) : Except ChainStoreError RedbChainStore :=
  foldOutcome connectOne store transitions

def withTables (coins : CoinTable)
    (undos : Table BlockHash (List UtxoUndo)) (tip : ExecutionTip) (ages : SpentAges) : RedbChainStore :=
  { store with coins, undos, tip, ages }

variable {store final : RedbChainStore}

theorem connectOne_eq_ok {transition : ConnectTransition} : store.connectOne transition = .ok final ↔
      store.journal = none ∧ ∃ coins undos tip ages, applyTransition store.coins transition = .ok coins ∧
        recordUndos store.retainBlockUndo store.undos [transition] = .ok undos ∧
        advanceTips store.validationTarget store.tip [transition] = .ok tip ∧
        countTransition store.ages transition = .ok ages ∧ final = store.withTables coins undos tip ages := by
  simp only [connectOne, commitConnect, ChainStore.connectWith, applyTransition, countTransition, countBlocks,
    recordUndos, advanceTips, foldOutcome_cons, foldOutcome_nil, bind_eq_ok, mapError_eq_ok, pure_eq_ok,
    ensure_eq_ok, exists_const, Except.ok.injEq, exists_eq_right]
  constructor
  · rintro ⟨_, ⟨plain, _, ⟨counts, counted, _, applied, undos, recorded, ages, connected, tip, advanced, rfl⟩,
      rfl⟩, rfl⟩
    exact ⟨plain, _, undos, tip, ages, ⟨_, applied, rfl⟩, recorded, advanced, ⟨counts, counted, connected⟩, rfl⟩
  · rintro ⟨plain, _, undos, tip, ages, ⟨applied, isApplied, rfl⟩, recorded, advanced,
      ⟨counts, counted, connected⟩, rfl⟩
    exact ⟨_, ⟨plain, _, ⟨counts, counted, applied, isApplied, undos, recorded, ages, connected, tip, advanced, rfl⟩,
      rfl⟩, rfl⟩

variable {transitions : Transitions} {bloomHashes : OutPointKey → UInt64 × UInt64}

theorem connectAll_eq_ok (plain : store.journal = none) : store.connectAll transitions = .ok final ↔
      ∃ coins undos tip ages, foldOutcome applyTransition store.coins transitions = .ok coins ∧
        recordUndos store.retainBlockUndo store.undos transitions = .ok undos ∧
        advanceTips store.validationTarget store.tip transitions = .ok tip ∧
        foldOutcome countTransition store.ages transitions = .ok ages ∧
        final = store.withTables coins undos tip ages := by
  induction transitions generalizing store with
  | nil =>
    simp only [connectAll, recordUndos, advanceTips, foldOutcome_nil, Except.ok.injEq, exists_and_left, exists_eq_left']
    tauto
  | cons _ _ ih =>
    rw [connectAll]
    simp only [bind_eq_ok, connectOne_eq_ok, recordUndos, advanceTips, foldOutcome_cons,
      foldOutcome_nil, Except.ok.injEq, exists_eq_right]
    constructor
    · rintro ⟨_, ⟨-, coins, undos, tip, ages, applied, recorded, advanced, counted, rfl⟩, remaining⟩
      have stillPlain : (store.withTables coins undos tip ages).journal = none := plain
      obtain ⟨coins', undos', tip', ages', restApplied, restRecorded, restAdvanced, restCounted, rfl⟩ :=
        (ih stillPlain).mp remaining
      exact ⟨coins', undos', tip', ages', ⟨coins, applied, restApplied⟩, ⟨undos, recorded, restRecorded⟩,
        ⟨tip, advanced, restAdvanced⟩, ⟨ages, counted, restCounted⟩, rfl⟩
    rintro ⟨coins', undos', tip', ages', ⟨coins, applied, restApplied⟩,
      ⟨undos, recorded, restRecorded⟩, ⟨tip, advanced, restAdvanced⟩, ⟨ages, counted, restCounted⟩, rfl⟩
    have stillPlain : (store.withTables coins undos tip ages).journal = none := plain
    refine ⟨_, ⟨plain, coins, undos, tip, ages, applied, recorded, advanced, counted, rfl⟩, ?_⟩
    exact (ih stillPlain).mpr
      ⟨coins', undos', tip', ages', restApplied, restRecorded, restAdvanced, restCounted, rfl⟩

theorem commitConnectBatch_eq_ok {first : ConnectTransition} {rest : Transitions} :
    store.commitConnectBatch bloomHashes (first :: rest) = .ok final ↔ ∃ change written undos tip ages,
        foldOutcome foldTransition ∅ (first :: rest) = .ok change ∧
        store.writeChanges bloomHashes ((first :: rest).getLast?.getD first).next.height (sortedKeys change.spent)
          (sortedEntries change.created) = .ok written ∧
        recordUndos store.retainBlockUndo store.undos (first :: rest) = .ok undos ∧
        advanceTips store.validationTarget store.tip (first :: rest) = .ok tip ∧
        countBlocks store.ages (undoneHeights (first :: rest)) first.next.height
          ((first :: rest).getLast?.getD first).next.height = .ok ages ∧
        final = { written with undos, tip, ages } := by
  simp only [commitConnectBatch, countBlocks, bind_eq_ok, mapError_eq_ok, pure_eq_ok]
  constructor
  · rintro ⟨change, folded, counts, counted, written, wrote, undos, recorded, tip, advanced, ages, connected, rfl⟩
    exact ⟨change, written, undos, tip, ages, folded, wrote, recorded, advanced, ⟨counts, counted, connected⟩, rfl⟩
  · rintro ⟨change, written, undos, tip, ages, folded, wrote, recorded, advanced, ⟨counts, counted, connected⟩, rfl⟩
    exact ⟨change, folded, counts, counted, written, wrote, undos, recorded, tip, advanced, ages, connected, rfl⟩

theorem disconnectMaterialized_eq_ok {expectedCurrent parent : ExecutionTip} {spent : List OutPointKey}
    {created : List CoinEntry} {transactionUndos : List UtxoUndo} {result : RedbChainStore × UtxoUndo} :
    store.disconnectMaterialized expectedCurrent parent spent created transactionUndos = .ok result ↔
      (Applicable store.coins.lookup spent created ∧ store.CanRewind expectedCurrent parent) ∧ ∃ ages,
      (spentAgeCounts [(expectedCurrent.height, transactionUndos)] >>=
        (disconnectSpentAges store.ages · expectedCurrent.height parent.height)) = .ok ages ∧
      result = ({ store with
        toChainStore := store.rewound ((store.coins.eraseAll spent).insertAll created) parent, ages },
        ⟨store.coins.entriesAt spent, created.map Prod.fst⟩) := by
  simp only [disconnectMaterialized, bind_eq_ok, ChainStore.disconnectWith_eq_ok, pure_eq_ok]
  grind

/-- One by one, a list is accepted exactly when the batch is and it hides no unspent coin; then both
leave the same store. -/
theorem connectAll_iff_commitConnectBatch (plain : store.journal = none) :
    store.connectAll transitions = .ok final ↔ store.commitConnectBatch bloomHashes transitions = .ok final ∧
        ReplacesOnlySpent store.coins.lookup [] transitions := by
  cases transitions with
  | nil => simp [connectAll, commitConnectBatch, ReplacesOnlySpent]
  | cons _ _ =>
    have writes height spent created : store.writeChanges bloomHashes height spent created = (do
        let coins ← applyValidatedChanges store.coins spent created
        return { store with coins }) := by
      rw [writeChanges, plain]
    rw [connectAll_eq_ok plain, commitConnectBatch_eq_ok]
    simp only [writes, bind_eq_ok, pure_eq_ok]
    constructor
    · rintro ⟨coins, undos, tip, ages, applied, recorded, advanced, counted, rfl⟩
      obtain ⟨⟨change, folded, net⟩, replaces⟩ := foldOutcome_applyTransition_iff.mp applied
      exact ⟨⟨change, _, undos, tip, ages, folded, ⟨coins, net, rfl⟩, recorded, advanced,
        (foldOutcome_countTransition advanced).mp counted, rfl⟩, replaces⟩
    · rintro ⟨⟨change, _, undos, tip, ages, folded, ⟨coins, net, rfl⟩, recorded, advanced, counted, rfl⟩, replaces⟩
      exact ⟨coins, undos, tip, ages, foldOutcome_applyTransition_iff.mpr ⟨⟨change, folded, net⟩, replaces⟩, recorded,
        advanced, (foldOutcome_countTransition advanced).mpr counted, rfl⟩

end RedbChainStore

end Rbtc.Chainstate
