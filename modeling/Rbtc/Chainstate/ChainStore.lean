import Rbtc.Chainstate.Coins
import Rbtc.Foundation.Edits

/-! The atomic UTXO mutation shared by the execution stores, and the unified chain store
(`chain_store.rs`) without the validation journal. -/

namespace Rbtc.Chainstate

open Foundation Bitcoin Table Prod Edit

/-- Coin tables a mutation works on: how they give a coin up, and how they take one in that may
replace a spent one. -/
structure CoinAccess (σ : Type) where
  take : σ → OutPointKey → Except UtxoError (σ × Utxo)
  create : σ → CoinEntry → Bool → Except UtxoError σ

namespace CoinAccess

structure Removing (σ : Type) where
  coins : σ
  seenSpent : Finset OutPointKey
  undoSpent : List CoinEntry

structure Inserting (σ : Type) where
  coins : σ
  seenCreated : Finset OutPointKey

variable {σ τ : Type} (access : CoinAccess σ)

def removeSpent (removing : Removing σ) (key : OutPointKey) : Except UtxoError (Removing σ) := do
  ensure (key ∉ removing.seenSpent) (.duplicateSpend key)
  let (coins, previous) ← access.take removing.coins key
  return ⟨coins, insert key removing.seenSpent, removing.undoSpent ++ [(key, previous)]⟩

def insertCreated (seenSpent : Finset OutPointKey) (inserting : Inserting σ) (coin : CoinEntry) :
    Except UtxoError (Inserting σ) := do
  ensure (coin.1 ∉ inserting.seenCreated) (.duplicate coin.1)
  let coins ← access.create inserting.coins coin (coin.1 ∈ seenSpent)
  return ⟨coins, insert coin.1 inserting.seenCreated⟩

/-- `apply_with_undo_transaction`. -/
def applyWithUndo (coins : σ) (spent : List OutPointKey) (created : List CoinEntry) :
    Except UtxoError (σ × UtxoUndo) := do
  let removed ← foldOutcome access.removeSpent ⟨coins, ∅, []⟩ spent
  let inserted ← foldOutcome (access.insertCreated removed.seenSpent) ⟨removed.coins, ∅⟩ created
  return (inserted.coins, ⟨removed.undoSpent, created.map fst⟩)

/-- The merging walk of `apply_validated_changes_transaction`, one round per entry at most. -/
def applyValidatedWalk : Nat → List OutPointKey → List CoinEntry → σ → Except UtxoError σ
  | 0, _, _, coins | _ + 1, [], [], coins => .ok coins
  | rounds + 1, key :: spent, [], coins => do
      let (removed, _) ← access.take coins key
      applyValidatedWalk rounds spent [] removed
  | rounds + 1, [], coin :: created, coins => do
      let inserted ← access.create coins coin false
      applyValidatedWalk rounds [] created inserted
  | rounds + 1, key :: spent, coin :: created, coins =>
    if key < coin.1 then do
      let (removed, _) ← access.take coins key
      applyValidatedWalk rounds spent (coin :: created) removed
    else if key = coin.1 then do
      let (removed, _) ← access.take coins key
      let inserted ← access.create removed coin true
      applyValidatedWalk rounds spent created inserted
    else do
      let inserted ← access.create coins coin false
      applyValidatedWalk rounds (key :: spent) created inserted

def applyValidatedChanges (coins : σ) (spent : List OutPointKey) (created : List CoinEntry) : Except UtxoError σ :=
  access.applyValidatedWalk (spent.length + created.length) spent created coins

/-- Two kinds of tables that answer alike. What relates them may rest on the keys taken so far: only
such a key is created as one that replaces a spent coin. -/
structure Alike (related : Finset OutPointKey → σ → τ → Prop) (left : CoinAccess σ) (right : CoinAccess τ) : Prop where
  take : ∀ {taken coins mapped} key, related taken coins mapped →
    Lockstep (fun gave took => related (insert key taken) gave.1 took.1 ∧ gave.2 = took.2)
      (left.take coins key) (right.take mapped key)
  create : ∀ {taken coins mapped} (coin : CoinEntry) (replacesSpent : Bool), related taken coins mapped →
    (replacesSpent = true → coin.1 ∈ taken) →
    Lockstep (related taken) (left.create coins coin replacesSpent) (right.create mapped coin replacesSpent)

variable {related : Finset OutPointKey → σ → τ → Prop} {left : CoinAccess σ} {right : CoinAccess τ}
  {coins : σ} {mapped : τ} {taken : Finset OutPointKey} (alike : Alike related left right)
include alike

theorem Alike.applyWithUndo (holds : related ∅ coins mapped) (spent : List OutPointKey) (created : List CoinEntry) :
    Lockstep (fun applied result => (∃ taken, related taken applied.1 result.1) ∧ applied.2 = result.2)
      (left.applyWithUndo coins spent created) (right.applyWithUndo mapped spent created) := by
  have removes : ∀ (one : Removing σ) (other : Removing τ) key, related one.seenSpent one.coins other.coins ∧
        one.seenSpent = other.seenSpent ∧ one.undoSpent = other.undoSpent →
      Lockstep (fun one other => related one.seenSpent one.coins other.coins ∧
        one.seenSpent = other.seenSpent ∧ one.undoSpent = other.undoSpent)
        (left.removeSpent one key) (right.removeSpent other key) := by
    rintro one other key ⟨holds, seen, undo⟩
    refine .ensure (by rw [seen]) fun _ => (alike.take key holds).bind ?_
    rintro _ _ ⟨next, coin⟩
    exact .ok ⟨next, by rw [seen], by rw [undo, coin]⟩
  have inserts : ∀ seenSpent (one : Inserting σ) (other : Inserting τ) coin,
      related seenSpent one.coins other.coins ∧ one.seenCreated = other.seenCreated →
      Lockstep (fun one other => related seenSpent one.coins other.coins ∧ one.seenCreated = other.seenCreated)
        (left.insertCreated seenSpent one coin) (right.insertCreated seenSpent other coin) := by
    rintro seenSpent one other coin ⟨holds, seen⟩
    refine .ensure (by rw [seen]) fun _ => (alike.create coin _ holds of_decide_eq_true).bind ?_
    exact fun _ _ next => .ok ⟨next, by rw [seen]⟩
  refine (Lockstep.foldOutcome removes ⟨holds, rfl, rfl⟩).bind ?_
  rintro one other ⟨holds, seen, undo⟩
  rw [← seen]
  refine (Lockstep.foldOutcome (inserts one.seenSpent) ⟨holds, rfl⟩).bind ?_
  exact fun _ _ ⟨last, _⟩ => .ok ⟨⟨_, last⟩, by rw [undo]⟩

theorem Alike.applyValidatedWalk {rounds : Nat} {spent : List OutPointKey} {created : List CoinEntry}
    (holds : related taken coins mapped) :
    Lockstep (fun walked result => ∃ taken, related taken walked result)
      (left.applyValidatedWalk rounds spent created coins) (right.applyValidatedWalk rounds spent created mapped) := by
  induction rounds generalizing taken spent created coins mapped with
  | zero => exact .ok ⟨taken, holds⟩
  | succ _ ih =>
    have removing := fun key => alike.take key holds
    have inserting := fun coin => alike.create coin false holds nofun
    match spent, created with
    | [], [] => exact .ok ⟨taken, holds⟩
    | key :: _, [] => exact (removing key).bind fun _ _ both => ih both.1
    | [], coin :: _ => exact (inserting coin).bind fun _ _ next => ih next
    | key :: _, coin :: _ =>
      rw [CoinAccess.applyValidatedWalk, CoinAccess.applyValidatedWalk]
      split
      · exact (removing key).bind fun _ _ both => ih both.1
      split
      · next same =>
        refine (removing key).bind fun _ _ both => ?_
        refine (alike.create coin true both.1 fun _ => ?_).bind fun _ _ next => ih next
        exact same ▸ Finset.mem_insert_self ..
      · exact (inserting coin).bind fun _ _ next => ih next

end CoinAccess

/-- One map of coins, which is what the two tables of the source amount to. -/
def oneTable : CoinAccess CoinTable where
  take coins key := do
    let coin ← require (coins.lookup key) (.missing key)
    return (coins.erase key, coin)
  create coins coin replacesSpent := do
    ensure (coins.lookup coin.1 = none ∨ replacesSpent = true) (.duplicate coin.1)
    return coins.insert coin.1 coin.2

def applyWithUndo (coins : CoinTable) (spent : List OutPointKey) (created : List CoinEntry) :
    Except UtxoError (CoinTable × UtxoUndo) :=
  oneTable.applyWithUndo coins spent created

def applyValidatedChanges (coins : CoinTable) (spent : List OutPointKey) (created : List CoinEntry) :
    Except UtxoError CoinTable :=
  oneTable.applyValidatedChanges coins spent created

section
variable {coins coins' : CoinTable} {created : List CoinEntry} {key : OutPointKey}

theorem take_bind_eq_ok {α : Type} {next : CoinTable → Except UtxoError α} {result : α} :
    (oneTable.take coins key >>= fun taken => next taken.1) = .ok result ↔
      coins.lookup key ≠ none ∧ next (coins.erase key) = .ok result := by
  cases found : coins.lookup key with
  | none => simp [oneTable, found, require]
  | some _ => simp [oneTable, found, require]

theorem create_eq_ok {coin : CoinEntry} {replacesSpent : Bool} :
    oneTable.create coins coin replacesSpent = .ok coins' ↔
      (coins.lookup coin.1 = none ∨ replacesSpent = true) ∧ coins' = coins.insert coin.1 coin.2 := by
  simp only [oneTable, bind_eq_ok, ensure_eq_ok, pure_eq_ok, exists_const]
  exact and_congr Iff.rfl eq_comm

theorem foldOutcome_removeSpent {final : CoinAccess.Removing CoinTable} {keys : List OutPointKey} :
    foldOutcome oneTable.removeSpent ⟨coins, ∅, []⟩ keys = .ok final ↔
      (keys.Nodup ∧ ∀ key ∈ keys, coins.lookup key ≠ none) ∧
        final = ⟨coins.eraseAll keys, keys.toFinset, coins.entriesAt keys⟩ := by
  refine (foldOutcome_distinct id (coins.lookup · ≠ none)
    (fun keys => CoinAccess.Removing.mk (coins.eraseAll keys) keys.toFinset (coins.entriesAt keys))
    fun front key next _ _ => ?_).trans (by rw [List.map_id])
  simp only [CoinAccess.removeSpent, oneTable, bind_eq_ok, ensure_eq_ok, require_eq_ok, pure_eq_ok, exists_const,
    List.map_id, id, List.mem_toFinset, and_assoc]
  refine and_congr_right fun apart => ?_
  rw [lookup_eraseAll, if_neg apart]
  cases found : coins.lookup key with
  | none => simp
  | some _ => simp [eraseAll, entriesAt, entriesOf, found, eq_comm]

theorem foldOutcome_insertCreated {seenSpent : Finset OutPointKey} {final : CoinAccess.Inserting CoinTable}
    (removed : ∀ key ∈ seenSpent, coins.lookup key = none) :
    foldOutcome (oneTable.insertCreated seenSpent) ⟨coins, ∅⟩ created = .ok final ↔
      ((created.map fst).Nodup ∧ ∀ key ∈ created.map fst, coins.lookup key = none) ∧
        final = ⟨coins.insertAll created, (created.map fst).toFinset⟩ := by
  refine foldOutcome_distinct fst (coins.lookup · = none)
    (fun created => CoinAccess.Inserting.mk (coins.insertAll created) (created.map fst).toFinset)
    fun front coin next nodup _ => ?_
  simp only [CoinAccess.insertCreated, create_eq_ok, bind_eq_ok, ensure_eq_ok, pure_eq_ok, exists_const,
    List.mem_toFinset, decide_eq_true_eq, and_assoc]
  refine and_congr_right fun apart => ?_
  rw [lookup_insertAll _ nodup, lookup_ofList_eq_none.mpr apart, Option.none_or, or_iff_left_of_imp (removed coin.1)]
  simp [insertAll, eq_comm]

theorem applyWithUndo_eq_ok {spent : List OutPointKey} {result : CoinTable × UtxoUndo} :
    applyWithUndo coins spent created = .ok result ↔ Applicable coins.lookup spent created ∧
        result = ((coins.eraseAll spent).insertAll created, ⟨coins.entriesAt spent, created.map fst⟩) := by
  have removed : ∀ key ∈ spent.toFinset, (coins.eraseAll spent).lookup key = none := by
    intro key member
    rw [lookup_eraseAll, if_pos (List.mem_toFinset.mp member)]
  have fresh : (∀ key ∈ created.map fst, (coins.eraseAll spent).lookup key = none) ↔
      ∀ key ∈ created.map fst, key ∉ spent → coins.lookup key = none := by
    simp [lookup_eraseAll]
  simp only [applyWithUndo, CoinAccess.applyWithUndo, bind_eq_ok, foldOutcome_removeSpent, pure_eq_ok]
  constructor
  · rintro ⟨_, ⟨⟨spentNodup, present⟩, rfl⟩, _, inserting, rfl⟩
    obtain ⟨⟨createdNodup, free⟩, rfl⟩ := (foldOutcome_insertCreated removed).mp inserting
    exact ⟨⟨spentNodup, present, createdNodup, fresh.mp free⟩, rfl⟩
  · rintro ⟨⟨spentNodup, present, createdNodup, free⟩, rfl⟩
    exact ⟨_, ⟨⟨spentNodup, present⟩, rfl⟩, _,
      (foldOutcome_insertCreated removed).mpr ⟨⟨createdNodup, fresh.mpr free⟩, rfl⟩, rfl⟩

end

@[ext] structure ChainStore where
  coins : CoinTable
  tip : ExecutionTip
  undos : Table BlockHash (List UtxoUndo)
  retainBlockUndo : Bool
  validationTarget : Option ExecutionTip
  assumedSnapshotBase : Option ExecutionTip
  deriving DecidableEq

/-- `spent_age_counts`. The histogram kept of the ages is no part of this model. -/
def spentAges (blocks : List (Nat × List UtxoUndo)) : Except UtxoError (List Nat) :=
  (blocks.flatMap fun block => (block.2.flatMap UtxoUndo.spent).map fun entry =>
    (block.1, entry.2)).mapM fun entry => do
    ensure (entry.2.height ≤ entry.1) (.malformed "spent coin height exceeds block")
    return entry.1 - entry.2.height

def advanceTip (validationTarget : Option ExecutionTip) (current : ExecutionTip)
    (expectedParent : BlockHash) (next : ExecutionTip) :
    Except ExecutionStoreError ExecutionTip := do
  ensure (current.hash = expectedParent ∧ checkedAdd 32 current.height 1 = some next.height)
    (.nonSequential current.height current.hash)
  match validationTarget with
  | none => pure ()
  | some target => do
      ensure (next.height ≤ target.height) (.validationTargetExceeded target.height next.height)
      ensure (¬ (next.height = target.height ∧ next.hash ≠ target.hash)) (.validationTargetMismatch target next)
  return next

def rewindTip (current expectedCurrent parent : ExecutionTip) :
    Except ExecutionStoreError ExecutionTip := do
  ensure (current = expectedCurrent ∧ checkedAdd 32 parent.height 1 = some current.height)
    (.nonSequential current.height current.hash)
  return parent

def insertUndo (undos : Table BlockHash (List UtxoUndo)) (block : BlockHash)
    (transactionUndos : List UtxoUndo) : Except UndoStoreError (Table BlockHash (List UtxoUndo)) := do
  ensure (undos.lookup block = none) (.duplicate block)
  return undos.insert block transactionUndos

def foldSpent (change : NetChange OutPointKey Utxo) (key : OutPointKey) :
    Except UtxoError (NetChange OutPointKey Utxo) :=
  if change.created.lookup key ≠ none then .ok { change with created := change.created.erase key }
  else do
    ensure (key ∉ change.spent) (.duplicateSpend key)
    return { change with spent := insert key change.spent }

def foldCreated (change : NetChange OutPointKey Utxo) (coin : CoinEntry) :
    Except UtxoError (NetChange OutPointKey Utxo) := do
  ensure (change.created.lookup coin.1 = none) (.duplicate coin.1)
  return { change with created := change.created.insert coin.1 coin.2 }

def foldTransition (change : NetChange OutPointKey Utxo) (transition : ConnectTransition) :
    Except UtxoError (NetChange OutPointKey Utxo) := do
  let removed ← foldOutcome foldSpent change transition.spent
  foldOutcome foldCreated removed transition.created

namespace ChainStore

variable (store : ChainStore)

def executionTip : ExecutionTip := store.tip

def blockUndo (hash : BlockHash) : Option (List UtxoUndo) :=
  store.undos.lookup hash

/-- The undo records after a block; only a store that retains undo keeps it. -/
def recordUndo (retain : Bool) (undos : Table BlockHash (List UtxoUndo)) (block : BlockHash)
    (transactionUndos : List UtxoUndo) : Except ChainStoreError (Table BlockHash (List UtxoUndo)) :=
  if retain then (insertUndo undos block transactionUndos).mapError .undo else .ok undos

section
variable {α β : Type} (count : Except UtxoError α) (record : α → Except UtxoError β) (expectedParent : BlockHash)
  (next expectedCurrent parent : ExecutionTip) (spent : List OutPointKey) (created : List CoinEntry)
  (transactionUndos : List UtxoUndo)

/-- `commit_connect` around what the store does about the ages of the spent coins: they are counted
first and recorded before the tip moves. -/
def connectWith : Except ChainStoreError ((ChainStore × β) × UtxoUndo) := do
  let counts ← count.mapError .utxo
  let (coins, undo) ← (applyWithUndo store.coins spent created).mapError .utxo
  let undos ← recordUndo store.retainBlockUndo store.undos next.hash transactionUndos
  let recorded ← (record counts).mapError .utxo
  let tip ← (advanceTip store.validationTarget store.tip expectedParent next).mapError .execution
  return (({ store with coins, undos, tip }, recorded), undo)

def commitConnect : Except ChainStoreError (ChainStore × UtxoUndo) := do
  let ((connected, _), undo) ← store.connectWith (spentAges [(next.height, transactionUndos)]) .ok
    expectedParent next spent created transactionUndos
  return (connected, undo)

/-- `commit_disconnect` around the ages of the coins it restores. -/
def disconnectWith : Except ChainStoreError ((ChainStore × β) × UtxoUndo) := do
  let counts ← count.mapError .utxo
  let (coins, undo) ← (applyWithUndo store.coins spent created).mapError .utxo
  let recorded ← (record counts).mapError .utxo
  let tip ← (rewindTip store.tip expectedCurrent parent).mapError .execution
  ensure (store.undos.lookup expectedCurrent.hash ≠ none) (.undo (.malformed "missing atomic disconnect undo"))
  return (({ store with coins, tip, undos := store.undos.erase expectedCurrent.hash }, recorded), undo)

def commitDisconnect : Except ChainStoreError (ChainStore × UtxoUndo) := do
  let ((disconnected, _), undo) ← store.disconnectWith (spentAges [(expectedCurrent.height, transactionUndos)]) .ok
    expectedCurrent parent spent created
  return (disconnected, undo)

end

end ChainStore

def AgesFit (blocks : List (Nat × List UtxoUndo)) : Prop :=
  ∀ block ∈ blocks, ∀ undo ∈ block.2, ∀ entry ∈ undo.spent, entry.2.height ≤ block.1

theorem spentAges_eq_ok {blocks : List (Nat × List UtxoUndo)} :
    (∃ ages, spentAges blocks = .ok ages) ↔ AgesFit blocks := by
  simp only [spentAges, mapM_eq_ok, bind_eq_ok, ensure_eq_ok, List.mem_flatMap, List.mem_map]
  constructor
  · intro fits block isBlock undo isUndo entry isEntry
    obtain ⟨_, _, bounded, _⟩ := fits (block.1, entry.2) ⟨block, isBlock, entry, ⟨undo, isUndo, isEntry⟩, rfl⟩
    exact bounded
  · rintro fits _ ⟨block, isBlock, entry, ⟨undo, isUndo, isEntry⟩, rfl⟩
    exact ⟨_, (), fits block isBlock undo isUndo entry isEntry, rfl⟩

/-- The next tip stands on the current one and does not pass or miss the validation target. -/
structure Advances (target : Option ExecutionTip) (current : ExecutionTip) (expectedParent : BlockHash)
    (next : ExecutionTip) : Prop where
  parent : current.hash = expectedParent
  height : checkedAdd 32 current.height 1 = some next.height
  target : ∀ goal ∈ target, next.height ≤ goal.height ∧ ¬ (next.height = goal.height ∧ next.hash ≠ goal.hash)

theorem advanceTip_eq_ok {target : Option ExecutionTip} {current next result : ExecutionTip}
    {expectedParent : BlockHash} : advanceTip target current expectedParent next = .ok result ↔
      Advances target current expectedParent next ∧ result = next := by
  have fields : Advances target current expectedParent next ↔
      (current.hash = expectedParent ∧ checkedAdd 32 current.height 1 = some next.height) ∧
        ∀ goal ∈ target, next.height ≤ goal.height ∧ ¬ (next.height = goal.height ∧ next.hash ≠ goal.hash) :=
    ⟨fun advances => ⟨⟨advances.parent, advances.height⟩, advances.target⟩, fun ⟨⟨parent, height⟩, goals⟩ =>
      ⟨parent, height, goals⟩⟩
  rw [fields, @eq_comm _ result]
  cases target with
  | none => simp [advanceTip, -bind_pure_comp]
  | some _ => simp [advanceTip, and_assoc, -bind_pure_comp]

namespace ChainStore

variable {transactionUndos : List UtxoUndo}

theorem recordUndo_eq_ok {retain : Bool} {undos undos' : Table BlockHash (List UtxoUndo)}
    {block : BlockHash} : recordUndo retain undos block transactionUndos = .ok undos' ↔
      (retain = true → undos.lookup block = none) ∧
        undos' = if retain then undos.insert block transactionUndos else undos := by
  cases retain with
  | false => simp [recordUndo, eq_comm]
  | true =>
    simp only [recordUndo, insertUndo, if_true, mapError_eq_ok, bind_eq_ok, ensure_eq_ok, pure_eq_ok,
      exists_const, forall_const]
    exact and_congr Iff.rfl eq_comm

/-- The tip can advance to the next block, whose undo record is new. -/
structure CanExtend (store : ChainStore) (expectedParent : BlockHash) (next : ExecutionTip) : Prop extends
    Advances store.validationTarget store.tip expectedParent next where
  undo_absent : store.retainBlockUndo = true → store.undos.lookup next.hash = none

def extended (store : ChainStore) (coins : CoinTable) (next : ExecutionTip)
    (transactionUndos : List UtxoUndo) : ChainStore :=
  { store with
    coins
    tip := next
    undos := if store.retainBlockUndo then store.undos.insert next.hash transactionUndos
      else store.undos }

/-- The tip can go back to the parent, and its undo record is there to be removed. -/
structure CanRewind (store : ChainStore) (expectedCurrent parent : ExecutionTip) : Prop where
  current : store.tip = expectedCurrent
  height : checkedAdd 32 parent.height 1 = some store.tip.height
  undo_present : store.undos.lookup expectedCurrent.hash ≠ none

def rewound (store : ChainStore) (coins : CoinTable) (parent : ExecutionTip) : ChainStore :=
  { store with
    coins
    tip := parent
    undos := store.undos.erase store.tip.hash }

variable {store : ChainStore} {spent : List OutPointKey} {created : List CoinEntry} {result : ChainStore × UtxoUndo}
  {α β : Type} {count : Except UtxoError α} {record : α → Except UtxoError β} {recorded : (ChainStore × β) × UtxoUndo}
  {expectedParent : BlockHash} {next expectedCurrent parent : ExecutionTip}

theorem connectWith_eq_ok :
    store.connectWith count record expectedParent next spent created transactionUndos = .ok recorded ↔
      (Applicable store.coins.lookup spent created ∧ store.CanExtend expectedParent next) ∧ ∃ ages,
      (count >>= record) = .ok ages ∧
      recorded = ((store.extended ((store.coins.eraseAll spent).insertAll created) next transactionUndos, ages),
        ⟨store.coins.entriesAt spent, created.map Prod.fst⟩) := by
  simp only [connectWith, bind_eq_ok, mapError_eq_ok, applyWithUndo_eq_ok, recordUndo_eq_ok,
    advanceTip_eq_ok, pure_eq_ok]
  constructor
  · rintro ⟨counts, counted, _, ⟨applicable, rfl⟩, _, ⟨absent, rfl⟩, _, recorded, _, ⟨advances, rfl⟩, rfl⟩
    exact ⟨⟨applicable, advances, absent⟩, _, ⟨counts, counted, recorded⟩, rfl⟩
  · rintro ⟨⟨applicable, canExtend⟩, _, ⟨counts, counted, recorded⟩, rfl⟩
    exact ⟨counts, counted, _, ⟨applicable, rfl⟩, _, ⟨canExtend.undo_absent, rfl⟩, _, recorded, _,
      ⟨canExtend.toAdvances, rfl⟩, rfl⟩

theorem commitConnect_eq_ok :
    store.commitConnect expectedParent next spent created transactionUndos = .ok result ↔
      (AgesFit [(next.height, transactionUndos)] ∧ Applicable store.coins.lookup spent created ∧
        store.CanExtend expectedParent next) ∧
      result = (store.extended ((store.coins.eraseAll spent).insertAll created) next transactionUndos,
        ⟨store.coins.entriesAt spent, created.map Prod.fst⟩) := by
  simp only [commitConnect, bind_eq_ok, connectWith_eq_ok, pure_eq_ok, ← spentAges_eq_ok]
  grind

theorem disconnectWith_eq_ok :
    store.disconnectWith count record expectedCurrent parent spent created = .ok recorded ↔
      (Applicable store.coins.lookup spent created ∧ store.CanRewind expectedCurrent parent) ∧ ∃ ages,
      (count >>= record) = .ok ages ∧
      recorded = ((store.rewound ((store.coins.eraseAll spent).insertAll created) parent, ages),
        ⟨store.coins.entriesAt spent, created.map Prod.fst⟩) := by
  simp only [disconnectWith, rewindTip, bind_eq_ok, mapError_eq_ok, applyWithUndo_eq_ok, ensure_eq_ok, pure_eq_ok]
  constructor
  · rintro ⟨counts, counted, _, ⟨applicable, rfl⟩, _, recorded, _, ⟨_, ⟨rfl, height⟩, rfl⟩, _, present, rfl⟩
    exact ⟨⟨applicable, rfl, height, present⟩, _, ⟨counts, counted, recorded⟩, rfl⟩
  · rintro ⟨⟨applicable, rfl, height, present⟩, _, ⟨counts, counted, recorded⟩, rfl⟩
    exact ⟨counts, counted, _, ⟨applicable, rfl⟩, _, recorded, _, ⟨(), ⟨rfl, height⟩, rfl⟩, (), present, rfl⟩

theorem commitDisconnect_eq_ok :
    store.commitDisconnect expectedCurrent parent spent created transactionUndos = .ok result ↔
      (AgesFit [(expectedCurrent.height, transactionUndos)] ∧ Applicable store.coins.lookup spent created ∧
        store.CanRewind expectedCurrent parent) ∧
      result = (store.rewound ((store.coins.eraseAll spent).insertAll created) parent,
        ⟨store.coins.entriesAt spent, created.map Prod.fst⟩) := by
  simp only [commitDisconnect, bind_eq_ok, disconnectWith_eq_ok, pure_eq_ok, ← spentAges_eq_ok]
  grind

end ChainStore

end Rbtc.Chainstate
