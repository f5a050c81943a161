import Rbtc.Chainstate.RedbChainStore
import Rbtc.Foundation.BatchRead

/-! A chain store over an immutable base snapshot, by the MDBX engine (`snapshot_overlay.rs`) and the redb
engine (`snapshot_overlay_redb.rs`). Both accept exactly the edits that fit what a reader sees. -/

namespace Rbtc.SnapshotOverlay

open Foundation Bitcoin Chainstate

structure BaseCoin where
  valueSats : Nat
  height : Nat
  isCoinbase : Bool
  scriptPubkey : List UInt8
  deriving DecidableEq, Repr

/-- A loaded base snapshot, with no coin above the base and a creation time for each height up to it. -/
structure SnapshotBase where
  coins : Table OutPointKey BaseCoin
  height : Nat
  blockHash : BlockHash
  mtpByHeight : List Nat
  importTime : Nat
  heights_le : ∀ outpoint coin, coins.lookup outpoint = some coin → coin.height ≤ height
  mtp_covers : mtpByHeight.length = height + 1

namespace SnapshotBase

def tip (base : SnapshotBase) : ExecutionTip := ⟨base.height, base.blockHash⟩

def baseUtxo (base : SnapshotBase) (outpoint : OutPointKey) : Except UtxoError (Option Utxo) :=
  match base.coins.lookup outpoint with
  | none => .ok none
  | some coin => do
      let mtp ← require base.mtpByHeight[coin.height]? (.malformed "base coin height above MTP table")
      return some ⟨coin.valueSats, coin.height, coin.isCoinbase, base.importTime, mtp, coin.scriptPubkey⟩

end SnapshotBase

inductive OverlayEngine where
  | mdbx
  | redb
  deriving DecidableEq, Repr

/-- The coins changed over a fixed snapshot base. -/
@[ext] structure OverlayStore where
  overlay : CoinTable
  tombstones : Finset OutPointKey
  undos : Table BlockHash (List UtxoUndo)
  tip : ExecutionTip
  deriving DecidableEq

section
variable (base : SnapshotBase)

@[ext] structure CoinTables where
  overlay : CoinTable
  tombstones : Finset OutPointKey

variable (tables : CoinTables)

def removeVisible (key : OutPointKey) : Except UtxoError (CoinTables × Utxo) :=
  match tables.overlay.lookup key with
  | some coin => .ok ({ tables with overlay := tables.overlay.erase key }, coin)
  | none => do
      ensure (key ∉ tables.tombstones) (.missing key)
      let found ← base.baseUtxo key
      let coin ← require found (.missing key)
      return ({ tables with tombstones := insert key tables.tombstones }, coin)

/-- The MDBX check of a created key: keys seen, and keys whose absence from the base is still to be
proved. -/
def probeCreated (seenSpent : Finset OutPointKey)
    (probing : Finset OutPointKey × List OutPointKey) (key : OutPointKey) :
    Except UtxoError (Finset OutPointKey × List OutPointKey) := do
  ensure (key ∉ probing.1) (.duplicate key)
  if key ∈ seenSpent then return (insert key probing.1, probing.2)
  else do
    ensure (tables.overlay.lookup key = none) (.duplicate key)
    return (insert key probing.1, if key ∈ tables.tombstones then probing.2 else probing.2 ++ [key])

def writeProbed (created : List CoinEntry)
    (baseProbe : List OutPointKey) : Except UtxoError CoinTables :=
  match baseProbe.find? fun key => (base.coins.lookup key).isSome with
  | some key => .error (.duplicate key)
  | none => .ok { tables with overlay := tables.overlay.insertAll created }

def createMdbx (seenSpent : Finset OutPointKey)
    (created : List CoinEntry) : Except UtxoError CoinTables := do
  let (_, baseProbe) ← foldOutcome (probeCreated tables seenSpent) (∅, []) (created.map Prod.fst)
  writeProbed base tables created baseProbe

def checkCreated (key : OutPointKey) (replacesSpent : Bool) : Except UtxoError Unit :=
  if replacesSpent then .ok ()
  else do
    ensure (tables.overlay.lookup key = none) (.duplicate key)
    if key ∈ tables.tombstones then .ok ()
    else do
      let found ← base.baseUtxo key
      ensure (found = none) (.duplicate key)

def access : CoinAccess CoinTables where
  take := removeVisible base
  create tables coin replacesSpent := do
    checkCreated base tables coin.1 replacesSpent
    return { tables with overlay := tables.overlay.insert coin.1 coin.2 }

def createRedb (seenSpent : Finset OutPointKey)
    (created : List CoinEntry) : Except UtxoError CoinTables := do
  let inserted ← foldOutcome ((access base).insertCreated seenSpent) ⟨tables, ∅⟩ created
  return inserted.coins

def createCoins : OverlayEngine → CoinTables → Finset OutPointKey → List CoinEntry →
    Except UtxoError CoinTables
  | .mdbx => createMdbx base
  | .redb => createRedb base

def connectMutation (engine : OverlayEngine) (tables : CoinTables) (spent : List OutPointKey)
    (created : List CoinEntry) : Except UtxoError (CoinTables × UtxoUndo) := do
  let removed ← foldOutcome (access base).removeSpent ⟨tables, ∅, []⟩ spent
  let inserted ← createCoins base engine removed.coins removed.seenSpent created
  return (inserted, ⟨removed.undoSpent, created.map Prod.fst⟩)

/-- The removal loop of `disconnect_mutation`, which has no check for repeated keys. -/
def removeOne (removing : CoinTables × List CoinEntry) (key : OutPointKey) :
    Except UtxoError (CoinTables × List CoinEntry) := do
  let (tables, coin) ← removeVisible base removing.1 key
  return (tables, removing.2 ++ [(key, coin)])

def restoreOne (coin : CoinEntry) : Except UtxoError CoinTables :=
  if base.height < coin.2.height then do
    ensure (tables.overlay.lookup coin.1 = none) (.duplicate coin.1)
    return { tables with overlay := tables.overlay.insert coin.1 coin.2 }
  else do
    ensure (coin.1 ∈ tables.tombstones) (.duplicate coin.1)
    return { tables with tombstones := tables.tombstones.erase coin.1 }

def disconnectMutation (removed : List OutPointKey) (restored : List CoinEntry) :
    Except UtxoError (CoinTables × List CoinEntry) := do
  let (tables, removedValues) ← foldOutcome (removeOne base) (tables, []) removed
  let restoredTables ← foldOutcome (restoreOne base) tables restored
  return (restoredTables, removedValues)

end

namespace OverlayStore

variable (engine : OverlayEngine) (base : SnapshotBase)

def fresh : OverlayStore := ⟨∅, ∅, ∅, base.tip⟩

variable (store : OverlayStore)

def tables : CoinTables := ⟨store.overlay, store.tombstones⟩

def withTables (tables : CoinTables) : OverlayStore :=
  { store with overlay := tables.overlay, tombstones := tables.tombstones }

/-- `advance_tip`, which knows no validation target. -/
def advanceTip (tip : ExecutionTip) (expectedParent : BlockHash) (next : ExecutionTip) :
    Except ChainStoreError ExecutionTip :=
  (Chainstate.advanceTip none tip expectedParent next).mapError .execution

/-- The tip and the undo record of one block; an older record of the same hash is overwritten. -/
def recordBlock (transition : ConnectTransition) :
    Except ChainStoreError OverlayStore := do
  let tip ← advanceTip store.tip transition.expectedParent transition.next
  return { store with
    tip
    undos := store.undos.insert transition.next.hash transition.transactionUndos }

def commitConnect (expectedParent : BlockHash) (next : ExecutionTip)
    (spent : List OutPointKey) (created : List CoinEntry)
    (transactionUndos : List UtxoUndo) : Except ChainStoreError (OverlayStore × UtxoUndo) := do
  let tip ← advanceTip store.tip expectedParent next
  let (tables, undo) ← (connectMutation base engine store.tables spent created).mapError .utxo
  return ({ store.withTables tables with
    tip
    undos := store.undos.insert next.hash transactionUndos }, undo)

/-- `commit_connect_folded`: tips and undo records block by block, then one coin change. -/
def commitConnectFolded (transitions : Transitions) (spent : List OutPointKey) (created : List CoinEntry) :
    Except ChainStoreError OverlayStore :=
  if transitions = [] then .ok store
  else do
    let recorded ← foldOutcome recordBlock store transitions
    let (tables, _) ← (connectMutation base engine recorded.tables spent created).mapError .utxo
    return recorded.withTables tables

/-- `commit_connect_batch`: the net change of the transitions (`fold_connect_batch`), written at once. -/
def commitConnectBatch (transitions : Transitions) : Except ChainStoreError OverlayStore :=
  if transitions = [] then .ok store
  else do
    let change ← (foldOutcome foldTransition ∅ transitions).mapError .utxo
    store.commitConnectFolded engine base transitions (sortedKeys change.spent) (sortedEntries change.created)

def commitDisconnect (expectedCurrent parent : ExecutionTip)
    (spent : List OutPointKey) (created : List CoinEntry) :
    Except ChainStoreError (OverlayStore × UtxoUndo) := do
  let tip ← (rewindTip store.tip expectedCurrent parent).mapError .execution
  ensure (base.tip ≠ store.tip) (.utxo (.malformed "cannot disconnect the assumed snapshot base"))
  let (tables, removed) ← (disconnectMutation base store.tables spent created).mapError .utxo
  ensure (store.undos.lookup store.tip.hash ≠ none) (.utxo (.malformed "missing atomic disconnect undo"))
  return ({ store.withTables tables with
    tip
    undos := store.undos.erase store.tip.hash }, ⟨removed, created.map Prod.fst⟩)

def get (outpoint : OutPointKey) : Except UtxoError (Option Utxo) :=
  match store.overlay.lookup outpoint with
  | some coin => .ok (some coin)
  | none => if outpoint ∈ store.tombstones then .ok none else base.baseUtxo outpoint

/-- What the overlay itself says of an outpoint, if the base need not be asked. -/
def ownAnswer (outpoint : OutPointKey) : Option (Option Utxo) :=
  match store.overlay.lookup outpoint with
  | some coin => some (some coin)
  | none => if outpoint ∈ store.tombstones then some none else none

def getMany (outpoints : List OutPointKey) :
    Except UtxoError (List (OutPointKey × Option Utxo)) := do
  let classified := BatchRead.addAll store.ownAnswer outpoints
  let resolved ← classified.wanted.mapM base.baseUtxo
  return classified.fill resolved

/-- Overlay coins, and base coins without a tombstone. -/
def tierStats : Nat × Nat :=
  (store.overlay.keys.card, base.coins.keys.card - store.tombstones.card)

end OverlayStore

open Table List Function Finset Edit Prod

def SnapshotBase.view (base : SnapshotBase) (outpoint : OutPointKey) : Option Utxo :=
  (base.coins.lookup outpoint).map fun coin => ⟨coin.valueSats, coin.height, coin.isCoinbase,
    base.importTime, base.mtpByHeight.getD coin.height 0, coin.scriptPubkey⟩

theorem SnapshotBase.baseUtxo_eq (base : SnapshotBase) (outpoint : OutPointKey) :
    base.baseUtxo outpoint = .ok (base.view outpoint) := by
  unfold baseUtxo view
  cases found : base.coins.lookup outpoint with
  | none => rfl
  | some coin =>
    have inTable : coin.height < base.mtpByHeight.length := by
      have := base.heights_le outpoint coin found
      rw [base.mtp_covers]
      omega
    simp only [getElem?_eq_getElem inTable, Option.map_some, getD_eq_getElem?_getD]
    rfl

theorem SnapshotBase.view_eq_none {base : SnapshotBase} {outpoint : OutPointKey} :
    base.view outpoint = none ↔ base.coins.lookup outpoint = none :=
  Option.map_eq_none_iff

variable {base : SnapshotBase} {tables final : CoinTables}

namespace CoinTables

def visible (base : SnapshotBase) (tables : CoinTables) (outpoint : OutPointKey) : Option Utxo :=
  match tables.overlay.lookup outpoint with
  | some coin => some coin
  | none => if outpoint ∈ tables.tombstones then none else base.view outpoint

/-- Tombstones name base coins, and an overlay coin over a base coin stands on a tombstone. -/
structure Consistent (base : SnapshotBase) (tables : CoinTables) : Prop where
  tombstones_base : ∀ key ∈ tables.tombstones, base.coins.lookup key ≠ none
  shadowed : ∀ key, tables.overlay.lookup key ≠ none → base.coins.lookup key ≠ none → key ∈ tables.tombstones

section
variable {key : OutPointKey}

theorem visible_of_overlay {coin : Utxo} (found : tables.overlay.lookup key = some coin) :
    tables.visible base key = some coin := by
  simp [visible, found]

theorem visible_of_tombstone (absent : tables.overlay.lookup key = none)
    (buried : key ∈ tables.tombstones) : tables.visible base key = none := by
  simp [visible, absent, if_pos buried]

theorem visible_of_base (absent : tables.overlay.lookup key = none)
    (unburied : key ∉ tables.tombstones) : tables.visible base key = base.view key := by
  simp [visible, absent, if_neg unburied]

theorem visible_eq_none : tables.visible base key = none ↔
    tables.overlay.lookup key = none ∧ (key ∈ tables.tombstones ∨ base.coins.lookup key = none) := by
  cases found : tables.overlay.lookup key with
  | some _ => simp [visible, found]
  | none =>
    by_cases buried : key ∈ tables.tombstones
    · simp [visible_of_tombstone found buried, buried]
    · simp [visible_of_base found buried, buried, SnapshotBase.view_eq_none]

theorem Consistent.overlay_eq (consistent : tables.Consistent base) (key : OutPointKey) : tables.overlay.lookup key =
      if base.coins.lookup key ≠ none ∧ key ∉ tables.tombstones then none else tables.visible base key := by
  cases found : tables.overlay.lookup key with
  | some coin =>
    have stands : ¬ (base.coins.lookup key ≠ none ∧ key ∉ tables.tombstones) := fun both =>
      both.2 (consistent.shadowed key (found ▸ Option.some_ne_none coin) both.1)
    rw [if_neg stands, visible_of_overlay found]
  | none =>
    split
    · rfl
    rename_i hidden
    refine (visible_eq_none.mpr ⟨found, ?_⟩).symm
    by_contra neither
    obtain ⟨unburied, inBase⟩ := not_or.mp neither
    exact hidden ⟨inBase, unburied⟩

end

/-- Consistent tables that show the edited coins. -/
structure Becomes (base : SnapshotBase) (tables : CoinTables) (edits : List (Edit OutPointKey Utxo))
    (final : CoinTables) : Prop where
  consistent : final.Consistent base
  visible : final.visible base = applyAll (tables.visible base) edits
  tombstones : ∀ key, key ∈ final.tombstones ↔
    key ∈ tables.tombstones ∨ key ∈ removedKeys edits ∧ base.coins.lookup key ≠ none

theorem ext_of_visible {left right : CoinTables} (leftConsistent : left.Consistent base)
    (rightConsistent : right.Consistent base) (view : left.visible base = right.visible base)
    (tombstones : left.tombstones = right.tombstones) : left = right := by
  refine CoinTables.ext (ext_lookup fun key => ?_) tombstones
  rw [leftConsistent.overlay_eq, rightConsistent.overlay_eq, view, tombstones]

variable {middle : CoinTables} {front back edits : List (Edit OutPointKey Utxo)}

theorem Becomes.unique {other : CoinTables} (one : Becomes base tables edits final)
    (two : Becomes base tables edits other) : final = other :=
  ext_of_visible one.consistent two.consistent (one.visible.trans two.visible.symm)
    (Finset.ext fun key => (one.tombstones key).trans (two.tombstones key).symm)

theorem becomes_nil (consistent : tables.Consistent base) : Becomes base tables [] tables where
  consistent
  visible := rfl
  tombstones key := by simp [removedKeys]

theorem Becomes.append (first : Becomes base tables front middle)
    (second : Becomes base middle back final) : Becomes base tables (front ++ back) final where
  consistent := second.consistent
  visible := by rw [second.visible, first.visible, applyAll_append]
  tombstones key := by
    rw [second.tombstones, first.tombstones, removedKeys_append, mem_append, or_and_right, or_assoc]

theorem removeVisible_spec (consistent : tables.Consistent base) (key : OutPointKey) :
    (∀ result, removeVisible base tables key = .ok result →
      tables.visible base key = some result.2 ∧ Becomes base tables [.remove key] result.1) ∧
    (tables.visible base key ≠ none → ∃ result, removeVisible base tables key = .ok result) := by
  have gone : applyAll (tables.visible base) [.remove key] =
      update (tables.visible base) key none := rfl
  have removed : ∀ other, other ∈ removedKeys [(.remove key : Edit OutPointKey Utxo)] ↔ other = key :=
    fun other => by simp [removedKeys]
  unfold removeVisible
  cases found : tables.overlay.lookup key with
  | some coin =>
    refine ⟨fun result isResult => ?_, fun _ => ⟨_, rfl⟩⟩
    cases isResult
    refine ⟨visible_of_overlay found, ⟨consistent.tombstones_base, fun other kept inBase => ?_⟩, ?_, fun other => ?_⟩
    · rw [lookup_erase] at kept
      split at kept
      · exact absurd rfl kept
      · exact consistent.shadowed other kept inBase
    · rw [gone]
      funext other
      by_cases same : other = key
      · subst same
        rw [update_self, visible_eq_none, lookup_erase_self]
        refine ⟨rfl, ?_⟩
        by_contra neither
        obtain ⟨unburied, inBase⟩ := not_or.mp neither
        exact unburied (consistent.shadowed other (found ▸ Option.some_ne_none coin) inBase)
      · rw [update_of_ne same]
        simp [CoinTables.visible, lookup_erase, if_neg same]
    · refine ⟨.inl, fun either => either.elim id fun both => ?_⟩
      obtain ⟨isKey, inBase⟩ := both
      cases (removed other).mp isKey
      exact consistent.shadowed _ (found ▸ Option.some_ne_none coin) inBase
  | none =>
    simp only [bind_eq_ok, ensure_eq_ok, base.baseUtxo_eq, Except.ok.injEq, exists_eq_left',
      require_eq_ok, pure_eq_ok, exists_const]
    refine ⟨?_, fun shown => ?_⟩
    · rintro _ ⟨unburied, coin, inBase, rfl⟩
      have stored : base.coins.lookup key ≠ none := fun absent => by
        rw [SnapshotBase.view_eq_none.mpr absent] at inBase
        cases inBase
      refine ⟨(visible_of_base found unburied).trans inBase, ⟨fun other buried => ?_,
        fun other kept present => ?_⟩, ?_, fun other => ?_⟩
      · rcases mem_insert.mp buried with rfl | earlier
        · exact stored
        · exact consistent.tombstones_base other earlier
      · exact mem_insert_of_mem (consistent.shadowed other kept present)
      · rw [gone]
        funext other
        by_cases same : other = key
        · subst same
          rw [update_self]
          exact visible_eq_none.mpr ⟨found, .inl (mem_insert_self ..)⟩
        · simp [CoinTables.visible, same]
      · rw [removed, mem_insert, or_comm]
        refine or_congr Iff.rfl ⟨fun same => ⟨same, same ▸ stored⟩, And.left⟩
    · have unburied : key ∉ tables.tombstones := fun buried =>
        shown (visible_of_tombstone found buried)
      obtain ⟨coin, isCoin⟩ := Option.ne_none_iff_exists'.mp shown
      rw [visible_of_base found unburied] at isCoin
      exact ⟨_, unburied, coin, isCoin, rfl⟩

theorem becomes_insert {coin : CoinEntry} (consistent : tables.Consistent base)
    (hidden : tables.visible base coin.1 = none) : Becomes base tables [.insert coin.1 coin.2]
      { tables with overlay := tables.overlay.insert coin.1 coin.2 } where
  consistent := by
    refine ⟨consistent.tombstones_base, fun key written inBase => ?_⟩
    rw [lookup_insert] at written
    split at written
    · next same =>
      rw [same] at inBase ⊢
      exact (visible_eq_none.mp hidden).2.resolve_right inBase
    · exact consistent.shadowed key written inBase
  visible := by
    funext key
    change _ = update (tables.visible base) coin.1 (some coin.2) key
    by_cases same : key = coin.1
    · rw [same, update_self]
      exact visible_of_overlay (lookup_insert_self ..)
    · rw [update_of_ne same]
      simp [CoinTables.visible, lookup_insert, if_neg same]
  tombstones key := by simp [removedKeys]

theorem becomes_insertAll {created : List CoinEntry} (consistent : tables.Consistent base)
    (nodup : (created.map fst).Nodup) (hidden : ∀ key ∈ created.map fst, tables.visible base key = none) :
    Becomes base tables (created.map ofEntry)
      { tables with overlay := tables.overlay.insertAll created } := by
  induction created generalizing tables with
  | nil => exact becomes_nil consistent
  | cons coin _ ih =>
    obtain ⟨apart, restNodup⟩ := nodup_cons.mp nodup
    have first := becomes_insert consistent (hidden coin.1 mem_cons_self)
    refine first.append (ih first.consistent restNodup fun key later => ?_)
    rw [first.visible]
    exact (update_of_ne (ne_of_mem_of_not_mem later apart) ..).trans (hidden key (.tail _ later))

theorem exists_becomes (consistent : tables.Consistent base)
    (fits : FitsAll (tables.visible base) edits) : ∃ final, Becomes base tables edits final := by
  induction edits generalizing tables with
  | nil => exact ⟨tables, becomes_nil consistent⟩
  | cons edit rest ih =>
    obtain ⟨first, later⟩ := fits
    have stepped : ∃ next, Becomes base tables [edit] next := by
      cases edit with
      | remove key =>
        obtain ⟨removes, removable⟩ := removeVisible_spec consistent key
        obtain ⟨result, isResult⟩ := removable first
        exact ⟨result.1, (removes result isResult).2⟩
      | insert key coin => exact ⟨_, @becomes_insert _ _ (key, coin) consistent first⟩
    obtain ⟨_, becomes⟩ := stepped
    obtain ⟨final, rest⟩ := ih becomes.consistent (becomes.visible ▸ later)
    exact ⟨final, becomes.append rest⟩

theorem Becomes.split (total : Becomes base tables (front ++ back) final)
    (consistent : tables.Consistent base) (fits : FitsAll (tables.visible base) (front ++ back)) :
    ∃ middle, Becomes base tables front middle ∧ Becomes base middle back final := by
  obtain ⟨frontFits, backFits⟩ := fitsAll_append.mp fits
  obtain ⟨middle, first⟩ := exists_becomes consistent frontFits
  obtain ⟨_, second⟩ := exists_becomes first.consistent (first.visible ▸ backFits)
  exact ⟨middle, first, (first.append second).unique total ▸ second⟩

end CoinTables

open CoinTables

theorem foldOutcome_removeSpent {removing : CoinAccess.Removing CoinTables} {keys : List OutPointKey}
    (consistent : removing.coins.Consistent base)
    (seen : ∀ key ∈ removing.seenSpent, removing.coins.visible base key = none) :
    (∀ final, foldOutcome (access base).removeSpent removing keys = .ok final →
      FitsAll (removing.coins.visible base) (keys.map .remove) ∧
        Becomes base removing.coins (keys.map .remove) final.coins ∧
        ∀ key ∈ final.seenSpent, final.coins.visible base key = none) ∧
    (FitsAll (removing.coins.visible base) (keys.map .remove) →
      ∃ final, foldOutcome (access base).removeSpent removing keys = .ok final) := by
  induction keys generalizing removing with
  | nil =>
    refine ⟨fun final isFinal => ?_, fun _ => ⟨removing, rfl⟩⟩
    cases isFinal
    exact ⟨trivial, becomes_nil consistent, seen⟩
  | cons key _ ih =>
    obtain ⟨removes, removable⟩ := removeVisible_spec consistent key
    have next : ∀ {result : CoinTables × Utxo}, removeVisible base removing.coins key = .ok result →
        ∀ other ∈ Insert.insert key removing.seenSpent, result.1.visible base other = none := by
      intro result isResult other member
      rw [(removes result isResult).2.visible]
      by_cases same : other = key
      · exact same ▸ update_self ..
      · exact (update_of_ne same ..).trans (seen other (mem_of_mem_insert_of_ne member same))
    constructor
    · intro final isFinal
      simp only [foldOutcome_cons, CoinAccess.removeSpent, bind_eq_ok, pure_eq_ok] at isFinal
      obtain ⟨_, ⟨_, -, result, isResult, rfl⟩, remaining⟩ := isFinal
      obtain ⟨shown, becomes⟩ := removes result isResult
      obtain ⟨fits, restBecomes, hidden⟩ := (ih becomes.consistent (next isResult)).1 final remaining
      rw [becomes.visible] at fits
      exact ⟨⟨ne_of_eq_of_ne shown (Option.some_ne_none _), fits⟩, becomes.append restBecomes, hidden⟩
    · rintro ⟨shown, fits⟩
      obtain ⟨result, isResult⟩ := removable shown
      have becomes := (removes result isResult).2
      obtain ⟨final, isFinal⟩ := (@ih ⟨result.1, insert key removing.seenSpent,
        removing.undoSpent ++ [(key, result.2)]⟩ becomes.consistent (next isResult)).2 (becomes.visible ▸ fits)
      refine ⟨final, ?_⟩
      simp only [foldOutcome_cons, CoinAccess.removeSpent, bind_eq_ok, ensure_eq_ok]
      exact ⟨_, ⟨(), fun repeated => shown (seen key repeated), result, isResult, rfl⟩, isFinal⟩

section
variable {seenSpent : Finset OutPointKey}

theorem foldOutcome_probeCreated {probed : Finset OutPointKey × List OutPointKey} {keys : List OutPointKey} :
    foldOutcome (probeCreated tables seenSpent) (∅, []) keys = .ok probed ↔
      (keys.Nodup ∧ ∀ key ∈ keys, key ∉ seenSpent → tables.overlay.lookup key = none) ∧
      probed = (keys.toFinset, keys.filter fun key => key ∉ seenSpent ∧ key ∉ tables.tombstones) := by
  refine (foldOutcome_distinct id (fun key => key ∉ seenSpent → tables.overlay.lookup key = none)
    (fun keys => (keys.toFinset, keys.filter fun key => key ∉ seenSpent ∧ key ∉ tables.tombstones))
    fun front key next _ _ => ?_).trans (by rw [List.map_id])
  unfold probeCreated
  by_cases spent : key ∈ seenSpent
  · simp only [if_pos spent, bind_eq_ok, ensure_eq_ok, pure_eq_ok]
    simp [spent, eq_comm]
  · simp only [if_neg spent, bind_eq_ok, ensure_eq_ok, pure_eq_ok]
    by_cases buried : key ∈ tables.tombstones <;> simp [spent, buried, and_assoc, eq_comm]

variable {created : List CoinEntry}

theorem writeProbed_eq_ok {probes : List OutPointKey} : writeProbed base tables created probes = .ok final ↔
      (∀ key ∈ probes, base.coins.lookup key = none) ∧
        final = { tables with overlay := tables.overlay.insertAll created } := by
  unfold writeProbed
  cases found : probes.find? fun key => (base.coins.lookup key).isSome with
  | some key =>
    have collides := List.find?_some found
    have listed := mem_of_find?_eq_some found
    simp only [reduceCtorEq, false_iff, not_and]
    intro absent
    rw [absent key listed] at collides
    cases collides
  | none =>
    have absent : ∀ key ∈ probes, base.coins.lookup key = none := by
      simpa using List.find?_eq_none.mp found
    simp only [Except.ok.injEq]
    exact ⟨fun same => ⟨absent, same.symm⟩, fun both => both.2.symm⟩

theorem createMdbx_eq_ok (seen : ∀ key ∈ seenSpent, tables.visible base key = none) :
    createMdbx base tables seenSpent created = .ok final ↔
      ((created.map fst).Nodup ∧ ∀ key ∈ created.map fst, tables.visible base key = none) ∧
        final = { tables with overlay := tables.overlay.insertAll created } := by
  simp only [createMdbx, bind_eq_ok, foldOutcome_probeCreated, writeProbed_eq_ok]
  constructor
  · rintro ⟨_, ⟨⟨nodup, uncovered⟩, rfl⟩, absent, rfl⟩
    refine ⟨⟨nodup, fun key listed => ?_⟩, rfl⟩
    by_cases spent : key ∈ seenSpent
    · exact seen key spent
    refine visible_eq_none.mpr ⟨uncovered key listed spent, ?_⟩
    by_cases buried : key ∈ tables.tombstones
    · exact .inl buried
    · exact .inr (absent key (mem_filter.mpr ⟨listed, by simp [spent, buried]⟩))
  · rintro ⟨⟨nodup, hidden⟩, rfl⟩
    refine ⟨_, ⟨⟨nodup, fun key listed _ => (visible_eq_none.mp (hidden key listed)).1⟩, rfl⟩,
      fun key probed => ?_, rfl⟩
    obtain ⟨listed, unburied⟩ := mem_filter.mp probed
    have hiddenAt := (visible_eq_none.mp (hidden key listed)).2
    exact hiddenAt.resolve_left (of_decide_eq_true unburied).2

theorem checkCreated_eq_ok {key : OutPointKey} {replacesSpent : Bool} {done : Unit}
    (seen : replacesSpent = true → tables.visible base key = none) :
    checkCreated base tables key replacesSpent = .ok done ↔ tables.visible base key = none := by
  unfold checkCreated
  split
  · next spent => simp [seen spent]
  rw [visible_eq_none]
  split
  · next buried => simp [buried]
  · next unburied =>
    simp [base.baseUtxo_eq, SnapshotBase.view_eq_none, unburied]

variable (seen : ∀ key ∈ seenSpent, tables.visible base key = none)
include seen

theorem foldOutcome_insertCreated {result : CoinAccess.Inserting CoinTables} :
    foldOutcome ((access base).insertCreated seenSpent) ⟨tables, ∅⟩ created = .ok result ↔
      ((created.map fst).Nodup ∧ ∀ key ∈ created.map fst, tables.visible base key = none) ∧
      result = ⟨{ tables with overlay := tables.overlay.insertAll created }, (created.map fst).toFinset⟩ := by
  refine foldOutcome_distinct fst (tables.visible base · = none) (fun created =>
    CoinAccess.Inserting.mk { tables with overlay := tables.overlay.insertAll created } (created.map fst).toFinset)
    fun front coin next nodup _ => ?_
  simp only [CoinAccess.insertCreated, access, bind_eq_ok, ensure_eq_ok, exists_const, pure_eq_ok, mem_toFinset,
    and_assoc]
  refine and_congr_right fun apart => ?_
  have unchanged : CoinTables.visible base { tables with overlay := tables.overlay.insertAll front } coin.1 =
      tables.visible base coin.1 := by
    simp [visible, lookup_insertAll _ nodup, lookup_ofList_eq_none.mpr apart]
  simp only [checkCreated_eq_ok fun spent => unchanged.trans (seen coin.1 (of_decide_eq_true spent)), unchanged]
  simp [insertAll, eq_comm]

theorem createCoins_eq_ok {engine : OverlayEngine} : createCoins base engine tables seenSpent created = .ok final ↔
      ((created.map fst).Nodup ∧ ∀ key ∈ created.map fst, tables.visible base key = none) ∧
        final = { tables with overlay := tables.overlay.insertAll created } := by
  cases engine with
  | mdbx => exact createMdbx_eq_ok seen
  | redb =>
    simp only [createCoins, createRedb, bind_eq_ok, pure_eq_ok, foldOutcome_insertCreated seen]
    simp [eq_comm]

end

theorem connectMutation_eq_ok {engine : OverlayEngine} {tables final : CoinTables}
    {spent : List OutPointKey} {created : List CoinEntry} (consistent : tables.Consistent base) :
    (∃ undo, connectMutation base engine tables spent created = .ok (final, undo)) ↔
      FitsAll (tables.visible base) (ofLists spent created) ∧
      Becomes base tables (ofLists spent created) final := by
  obtain ⟨spends, spendable⟩ := @foldOutcome_removeSpent base ⟨tables, ∅, []⟩ spent consistent nofun
  simp only [connectMutation, ofLists, bind_eq_ok, pure_eq_ok, Prod.mk.injEq, fitsAll_append]
  constructor
  · rintro ⟨_, spending, isSpending, _, isInserted, rfl, -⟩
    obtain ⟨fits, becomes, hidden⟩ := spends spending isSpending
    obtain ⟨⟨nodup, free⟩, rfl⟩ := (createCoins_eq_ok hidden).mp isInserted
    refine ⟨⟨fits, ?_⟩, becomes.append (becomes_insertAll becomes.consistent nodup free)⟩
    rw [← becomes.visible]
    exact fitsAll_inserts.mpr ⟨nodup, free⟩
  rintro ⟨⟨fits, insertFits⟩, total⟩
  obtain ⟨spending, isSpending⟩ := spendable fits
  obtain ⟨-, becomes, hidden⟩ := spends spending isSpending
  rw [← becomes.visible] at insertFits
  obtain ⟨nodup, free⟩ := fitsAll_inserts.mp insertFits
  refine ⟨_, spending, isSpending, _, (createCoins_eq_ok hidden).mpr ⟨⟨nodup, free⟩, rfl⟩, ?_, rfl⟩
  exact (becomes.append (becomes_insertAll becomes.consistent nodup free)).unique total

namespace OverlayStore

variable {base : SnapshotBase} {store : OverlayStore}

theorem get_eq (base : SnapshotBase) (store : OverlayStore) (outpoint : OutPointKey) :
    store.get base outpoint = .ok (store.tables.visible base outpoint) := by
  unfold get CoinTables.visible tables
  cases store.overlay.lookup outpoint with
  | some _ => rfl
  | none =>
    dsimp only
    split
    · rfl
    · exact base.baseUtxo_eq outpoint

theorem visible_eq_getD (outpoint : OutPointKey) :
    store.tables.visible base outpoint = (store.ownAnswer outpoint).getD (base.view outpoint) := by
  simp only [visible, ownAnswer, OverlayStore.tables]
  cases store.overlay.lookup outpoint with
  | some _ => rfl
  | none => by_cases buried : outpoint ∈ store.tombstones <;> simp [buried]

theorem getMany_eq (base : SnapshotBase) (store : OverlayStore) (outpoints : List OutPointKey) :
    store.getMany base outpoints =
      .ok (outpoints.map fun outpoint => (outpoint, store.tables.visible base outpoint)) := by
  have answered : (BatchRead.addAll store.ownAnswer outpoints).wanted.mapM base.baseUtxo =
      .ok ((BatchRead.addAll store.ownAnswer outpoints).wanted.map base.view) := by
    rw [funext base.baseUtxo_eq]
    exact mapM_pure
  rw [getMany, answered, funext visible_eq_getD]
  exact congrArg Except.ok (BatchRead.answers_addAll store.ownAnswer base.view outpoints).filled

theorem exists_visible_card (consistent : store.tables.Consistent base) :
    ∃ shown : Finset OutPointKey, (∀ key, key ∈ shown ↔ store.tables.visible base key ≠ none) ∧
      shown.card = base.coins.keys.card - store.tombstones.card + store.overlay.keys.card := by
  refine ⟨(base.coins.keys \ store.tombstones) ∪ store.overlay.keys, fun key => ?_, ?_⟩
  · rw [mem_union, mem_sdiff, mem_keys_iff, mem_keys_iff, ne_eq, ne_eq, ne_eq,
      visible_eq_none, not_and_or, not_or, or_comm]
    exact or_congr Iff.rfl and_comm
  have buried : store.tombstones ⊆ base.coins.keys := fun key member =>
    mem_keys_iff.mpr (consistent.tombstones_base key member)
  have apart : Disjoint (base.coins.keys \ store.tombstones) store.overlay.keys :=
    disjoint_left.mpr fun key inBase written => by
      obtain ⟨stored, unburied⟩ := mem_sdiff.mp inBase
      exact unburied (consistent.shadowed key (mem_keys_iff.mp written) (mem_keys_iff.mp stored))
  rw [card_union_of_disjoint apart, card_sdiff_of_subset buried]

end OverlayStore

end Rbtc.SnapshotOverlay
