import Rbtc.Chainstate.RedbChainStore

/-! The two physical tables of the redb UTXO store (`utxo.rs`), hot and cold. They hold one coin map, which
aging and re-tiering leave as it is. -/

namespace Rbtc.Chainstate

open Foundation Bitcoin

/-- The hot and the cold coin table. -/
@[ext] structure Tiers where
  hot : CoinTable
  cold : CoinTable
  deriving DecidableEq

def bothTiers : UtxoError := .malformed "outpoint in both tiers"

namespace Tiers

def empty : Tiers := ⟨∅, ∅⟩

variable (tiers : Tiers)

def isEmpty : Bool := tiers.hot.keys = ∅ ∧ tiers.cold.keys = ∅

def place (cutoff : Nat) (tiers : Tiers) (coin : CoinEntry) : Tiers :=
  if coin.2.lastTouched < cutoff then { tiers with cold := tiers.cold.insert coin.1 coin.2 }
  else { tiers with hot := tiers.hot.insert coin.1 coin.2 }

def get (outpoint : OutPointKey) : Option Utxo :=
  match tiers.hot.lookup outpoint with
  | some coin => some coin
  | none => tiers.cold.lookup outpoint

def minParallelPrefetchKeys : Nat := 4096

def divCeil (number divisor : Nat) : Nat := (number + divisor - 1) / divisor

def chunksOf {α : Type} (size : Nat) : Nat → List α → List (List α)
  | 0, _ | _ + 1, [] => []
  | rounds + 1, item :: rest =>
    (item :: rest).take size :: chunksOf size rounds ((item :: rest).drop size)

def getManySerial (outpoints : List OutPointKey) : List (OutPointKey × Option Utxo) :=
  outpoints.map fun outpoint => (outpoint, tiers.get outpoint)

def getManySortedSerial (outpoints : List (OutPointKey × Nat)) :
    List (Nat × OutPointKey × Option Utxo) :=
  outpoints.map fun entry => (entry.2, entry.1, tiers.get entry.1)

def prefetch (sorted : List (OutPointKey × Nat)) (workers : Nat) :
    List (OutPointKey × Option Utxo) :=
  let chunks := chunksOf (divCeil sorted.length workers) sorted.length sorted
  let prefetched := chunks.flatMap tiers.getManySortedSerial
  (prefetched.insertionSort fun left right => left.1 ≤ right.1).map Prod.snd

/-- `available` is the parallelism of the machine. -/
def getMany (available : Nat) (outpoints : List OutPointKey) :
    List (OutPointKey × Option Utxo) :=
  let workers := min available (divCeil outpoints.length minParallelPrefetchKeys)
  if workers ≤ 1 then tiers.getManySerial outpoints
  else tiers.prefetch (outpoints.zipIdx.insertionSort fun left right => left.1 ≤ right.1) workers

variable (coldIsEmpty : Bool)

/-- Takes a coin out of the tier that holds it. An empty cold tier is never probed. -/
def take (tiers : Tiers) (key : OutPointKey) : Except UtxoError (Tiers × Utxo) :=
  match tiers.hot.lookup key with
  | some coin => do
      ensure (coldIsEmpty = true ∨ tiers.cold.lookup key = none) bothTiers
      return ({ tiers with hot := tiers.hot.erase key }, coin)
  | none =>
    if coldIsEmpty then .error (.missing key)
    else do
      let coin ← require (tiers.cold.lookup key) (.missing key)
      return ({ tiers with cold := tiers.cold.erase key }, coin)

def createHot (tiers : Tiers) (coin : CoinEntry) (replacesSpent : Bool) :
    Except UtxoError Tiers := do
  ensure (coldIsEmpty = true ∨ tiers.cold.lookup coin.1 = none) (.duplicate coin.1)
  ensure (tiers.hot.lookup coin.1 = none ∨ replacesSpent = true) (.duplicate coin.1)
  return { tiers with hot := tiers.hot.insert coin.1 coin.2 }

def access : CoinAccess Tiers := ⟨take coldIsEmpty, createHot coldIsEmpty⟩

def applyWithUndo (spent : List OutPointKey) (created : List CoinEntry) :
    Except UtxoError (Tiers × UtxoUndo) :=
  (access (tiers.cold.keys = ∅)).applyWithUndo tiers spent created

def apply (spent : List OutPointKey) (created : List CoinEntry) :
    Except UtxoError Tiers := do
  let (applied, _) ← tiers.applyWithUndo spent created
  return applied

def applyValidatedChanges (spent : List OutPointKey)
    (created : List CoinEntry) : Except UtxoError Tiers :=
  (access (tiers.cold.keys = ∅)).applyValidatedChanges tiers spent created

def removeBoth (key : OutPointKey) : Tiers :=
  ⟨tiers.hot.erase key, tiers.cold.erase key⟩

/-- A coin to restore must be absent, unless the mutation had created its outpoint again. -/
def checkRestored (created : List OutPointKey) (entry : CoinEntry) :
    Except UtxoError Unit :=
  ensure (entry.1 ∈ created ∨ tiers.hot.lookup entry.1 = none ∧ tiers.cold.lookup entry.1 = none)
    (.duplicate entry.1)

def undo (tiers : Tiers) (undo : UtxoUndo) (now hotWindowSecs : Nat) : Except UtxoError Tiers := do
  let _ ← foldOutcome (fun _ => checkRestored tiers undo.created) () undo.spent
  let removed := undo.created.foldl removeBoth tiers
  return undo.spent.foldl (place (now - hotWindowSecs)) removed

def ageOne (aging : Tiers × Nat) (key : OutPointKey) : Tiers × Nat :=
  match aging.1.hot.lookup key with
  | some coin => (⟨aging.1.hot.erase key, aging.1.cold.insert key coin⟩, aging.2 + 1)
  | none => aging

def ageToCold (now hotWindowSecs : Nat) : Tiers × Nat :=
  let aged := (sortedEntries tiers.hot).filter fun entry => entry.2.lastTouched < now - hotWindowSecs
  (aged.map Prod.fst).foldl ageOne (tiers, 0)

/-- `entries` is a map already, so its keys come once and in order. -/
def replaceAll (_ : Tiers) (entries : CoinTable) (now hotWindowSecs : Nat) : Tiers :=
  (sortedEntries entries).foldl (place (now - hotWindowSecs)) empty

end Tiers

structure InsertingSnapshot where
  tiers : Tiers
  records : List CoinEntry
  recordsBytes : Nat

def recordLength (coin : Utxo) : Nat := 36 + (29 + coin.scriptPubkey.length)

structure SnapshotContentIdentity (δ : Type) where
  recordsDigest : δ
  utxoCount : Nat
  recordsBytes : Nat

inductive SnapshotError where
  | notFresh
  | utxo (error : UtxoError)
  | countMismatch (expected actual : Nat)
  | sizeMismatch (expected actual : Nat)
  | digestMismatch
  deriving DecidableEq, Repr

def insertSnapshotEntry (cutoff expectedCount expectedRecordsBytes : Nat) (inserting : InsertingSnapshot)
    (entry : Except UtxoError CoinEntry) : Except UtxoError InsertingSnapshot := do
  let coin ← entry
  ensure (∀ previous ∈ inserting.records.getLast?, previous.1 < coin.1)
    (.malformed "snapshot outpoints are not strictly ordered")
  let count ← require (checkedAdd 64 inserting.records.length 1) (.malformed "snapshot UTXO count overflow")
  let recordsBytes ← require (checkedAdd 64 inserting.recordsBytes (recordLength coin.2))
    (.malformed "snapshot records length overflow")
  ensure (count ≤ expectedCount) (.malformed "snapshot exceeds authenticated UTXO count")
  ensure (recordsBytes ≤ expectedRecordsBytes) (.malformed "snapshot exceeds authenticated records length")
  return ⟨inserting.tiers.place cutoff coin, inserting.records ++ [coin], recordsBytes⟩

/-- The tables must be empty, and the entries have the authenticated count, size and digest. -/
def Tiers.assumeSnapshotEntries {δ : Type} [DecidableEq δ] (digest : List CoinEntry → δ) (tiers : Tiers)
    (content : SnapshotContentIdentity δ) (entries : List (Except UtxoError CoinEntry)) (now hotWindowSecs : Nat) :
    Except SnapshotError Tiers := do
  ensure tiers.isEmpty .notFresh
  let inserted ← (foldOutcome (insertSnapshotEntry (now - hotWindowSecs) content.utxoCount
    content.recordsBytes) ⟨tiers, [], 0⟩ entries).mapError .utxo
  ensure (inserted.records.length = content.utxoCount) (.countMismatch content.utxoCount inserted.records.length)
  ensure (inserted.recordsBytes = content.recordsBytes) (.sizeMismatch content.recordsBytes inserted.recordsBytes)
  ensure (digest inserted.records = content.recordsDigest) .digestMismatch
  return inserted.tiers

structure HeightRetierState where
  tipHeight : Nat
  hotWindowBlocks : Nat
  after : Option OutPointKey
  scanned : Nat
  movedToHot : Nat
  movedToCold : Nat
  deriving DecidableEq, Repr

structure HeightRetierProgress where
  scanned : Nat
  movedToHot : Nat
  movedToCold : Nat
  complete : Bool
  deriving DecidableEq, Repr

def HeightRetierState.progress (state : HeightRetierState) (complete : Bool) : HeightRetierProgress :=
  ⟨state.scanned, state.movedToHot, state.movedToCold, complete⟩

@[ext] structure RedbUtxoStore extends Tiers where
  retierProgress : Option HeightRetierState
  deriving DecidableEq

structure TierRow where
  key : OutPointKey
  coin : Utxo
  isHot : Bool
  deriving DecidableEq, Repr

def rowsAfter (table : CoinTable) (after : Option OutPointKey) : List CoinEntry :=
  (sortedEntries table).filter fun entry => ∀ cursor ∈ after, cursor < entry.1

def mergePage : Nat → List CoinEntry → List CoinEntry → Except UtxoError (List TierRow)
  | 0, _, _ | _ + 1, [], [] => .ok []
  | limit + 1, (key, coin) :: hot, [] => do
      let page ← mergePage limit hot []
      return ⟨key, coin, true⟩ :: page
  | limit + 1, [], (key, coin) :: cold => do
      let page ← mergePage limit [] cold
      return ⟨key, coin, false⟩ :: page
  | limit + 1, (hotKey, hotCoin) :: hot, (coldKey, coldCoin) :: cold =>
    if hotKey < coldKey then do
      let page ← mergePage limit hot ((coldKey, coldCoin) :: cold)
      return ⟨hotKey, hotCoin, true⟩ :: page
    else if coldKey < hotKey then do
      let page ← mergePage limit ((hotKey, hotCoin) :: hot) cold
      return ⟨coldKey, coldCoin, false⟩ :: page
    else .error bothTiers

def retierRow (tipHeight hotWindowBlocks : Nat) (moving : Tiers × HeightRetierState) (row : TierRow) :
    Except UtxoError (Tiers × HeightRetierState) := do
  ensure (row.coin.height ≤ tipHeight) (.malformed "UTXO creation height exceeds re-tier tip")
  match row.isHot, decide (tipHeight - row.coin.height ≤ hotWindowBlocks) with
  | true, false => do
      ensure (moving.1.cold.lookup row.key = none) bothTiers
      let movedToCold ← require (checkedAdd 64 moving.2.movedToCold 1)
        (.malformed "height re-tier cold count overflow")
      return (⟨moving.1.hot.erase row.key, moving.1.cold.insert row.key row.coin⟩,
        { moving.2 with movedToCold })
  | false, true => do
      ensure (moving.1.hot.lookup row.key = none) bothTiers
      let movedToHot ← require (checkedAdd 64 moving.2.movedToHot 1)
        (.malformed "height re-tier hot count overflow")
      return (⟨moving.1.hot.insert row.key row.coin, moving.1.cold.erase row.key⟩,
        { moving.2 with movedToHot })
  | _, _ => return moving

def RedbUtxoStore.retierState (store : RedbUtxoStore) (tipHeight hotWindowBlocks : Nat) :
    HeightRetierState :=
  match store.retierProgress with
  | some state =>
    if state.tipHeight = tipHeight ∧ state.hotWindowBlocks = hotWindowBlocks then state
    else ⟨tipHeight, hotWindowBlocks, none, 0, 0, 0⟩
  | none => ⟨tipHeight, hotWindowBlocks, none, 0, 0, 0⟩

def RedbUtxoStore.retierPage (store : RedbUtxoStore) (state : HeightRetierState) (scanLimit : Nat)
    (page : List TierRow) : Except UtxoError (RedbUtxoStore × HeightRetierProgress) := do
  let (tiers, moved) ← foldOutcome (retierRow state.tipHeight state.hotWindowBlocks)
    (store.toTiers, state) page
  let scanned ← require (checkedAdd 64 moved.scanned page.length)
    (.malformed "height re-tier scan count overflow")
  let next := { moved with scanned, after := page.getLast?.map TierRow.key }
  let complete : Bool := page.length < scanLimit
  return (⟨tiers, if complete then none else some next⟩, next.progress complete)

def RedbUtxoStore.retierByHeightBatch (store : RedbUtxoStore) (tipHeight hotWindowBlocks scanLimit : Nat) :
    Except UtxoError (RedbUtxoStore × HeightRetierProgress) := do
  ensure (scanLimit ≠ 0) (.malformed "height re-tier scan limit")
  let state := store.retierState tipHeight hotWindowBlocks
  let page ← mergePage scanLimit (rowsAfter store.hot state.after) (rowsAfter store.cold state.after)
  if page = [] then return ({ store with retierProgress := none }, state.progress true)
  else store.retierPage state scanLimit page

open Table List

/-- The tiers share no key and together hold the map. -/
structure Tiers.Represents (tiers : Tiers) (coins : CoinTable) : Prop where
  apart : ∀ key, tiers.hot.lookup key = none ∨ tiers.cold.lookup key = none
  shows : ∀ key, tiers.get key = coins.lookup key

namespace Tiers

variable {tiers : Tiers} {coins : CoinTable}

theorem get_eq (tiers : Tiers) (key : OutPointKey) :
    tiers.get key = (tiers.hot.lookup key).or (tiers.cold.lookup key) := by
  unfold get
  cases tiers.hot.lookup key <;> rfl

variable {key : OutPointKey}

theorem get_eq_none : tiers.get key = none ↔ tiers.hot.lookup key = none ∧ tiers.cold.lookup key = none := by
  rw [get_eq, Option.or_eq_none_iff]

theorem get_of_hot {coin : Utxo} (found : tiers.hot.lookup key = some coin) : tiers.get key = some coin := by
  rw [get_eq, found, Option.some_or]

theorem get_of_cold (absent : tiers.hot.lookup key = none) : tiers.get key = tiers.cold.lookup key := by
  rw [get_eq, absent, Option.none_or]

theorem exists_represented (apart : ∀ key, tiers.hot.lookup key = none ∨ tiers.cold.lookup key = none) :
    ∃ coins, tiers.Represents coins := by
  refine ⟨tiers.cold.insertAll (sortedEntries tiers.hot), apart, fun key => ?_⟩
  rw [get_eq, lookup_insertAll _ (keySorted_sortedEntries _).nodup, ofList_sortedEntries]

theorem represents_empty : Represents empty ∅ where
  apart key := .inl (lookup_empty key)
  shows key := by rw [get_eq, empty, lookup_empty, Option.none_or]

theorem isEmpty_iff : tiers.isEmpty = true ↔ tiers = empty := by
  unfold isEmpty
  rw [decide_eq_true_eq]
  constructor
  · rintro ⟨hot, cold⟩
    have bare : ∀ table : CoinTable, table.keys = ∅ → table = ∅ := fun table none => by
      ext key : 1
      by_contra present
      exact absurd (mem_keys_iff.mpr present) (none ▸ Finset.notMem_empty key)
    exact Tiers.ext (bare _ hot) (bare _ cold)
  · rintro rfl
    exact ⟨rfl, rfl⟩

section
variable {key : OutPointKey} {coin : Utxo}

theorem Represents.update {tiers' : Tiers} {coins' : CoinTable} (represents : tiers.Represents coins)
    (hot : ∀ other, other ≠ key → tiers'.hot.lookup other = tiers.hot.lookup other)
    (cold : ∀ other, other ≠ key → tiers'.cold.lookup other = tiers.cold.lookup other)
    (rest : ∀ other, other ≠ key → coins'.lookup other = coins.lookup other)
    (apart : tiers'.hot.lookup key = none ∨ tiers'.cold.lookup key = none)
    (shows : tiers'.get key = coins'.lookup key) : tiers'.Represents coins' where
  apart other := by
    by_cases same : other = key
    · exact same ▸ apart
    · rw [hot other same, cold other same]
      exact represents.apart other
  shows other := by
    by_cases same : other = key
    · exact same ▸ shows
    · rw [get_eq, hot other same, cold other same, ← get_eq, represents.shows, rest other same]

variable {table : CoinTable} {other : OutPointKey}

theorem lookup_insert_of_ne (distinct : other ≠ key) : (table.insert key coin).lookup other = table.lookup other := by
  rw [lookup_insert, if_neg distinct]

theorem lookup_erase_of_ne (distinct : other ≠ key) : (table.erase key).lookup other = table.lookup other := by
  rw [lookup_erase, if_neg distinct]

variable (represents : tiers.Represents coins)
include represents

theorem Represents.insertHot {coin : CoinEntry} (absent : tiers.cold.lookup coin.1 = none) :
    Represents { tiers with hot := tiers.hot.insert coin.1 coin.2 } (coins.insert coin.1 coin.2) :=
  represents.update (fun _ => lookup_insert_of_ne) (fun _ _ => rfl) (fun _ => lookup_insert_of_ne)
    (.inr absent) ((get_of_hot (lookup_insert_self ..)).trans (lookup_insert_self ..).symm)

theorem Represents.place (cutoff : Nat) {coin : CoinEntry} (absent : coins.lookup coin.1 = none) :
    (tiers.place cutoff coin).Represents (coins.insert coin.1 coin.2) := by
  rw [← represents.shows, get_eq_none] at absent
  unfold Tiers.place
  split
  · refine represents.update (fun _ _ => rfl) (fun _ => lookup_insert_of_ne)
      (fun _ => lookup_insert_of_ne) (.inl absent.1) ?_
    rw [get_of_cold (by exact absent.1), lookup_insert_self, lookup_insert_self]
  · exact represents.insertHot absent.2

theorem Represents.foldl_place (cutoff : Nat)
    {entries : List CoinEntry} (nodup : (entries.map Prod.fst).Nodup)
    (absent : ∀ key ∈ entries.map Prod.fst, coins.lookup key = none) :
    (entries.foldl (Tiers.place cutoff) tiers).Represents (coins.insertAll entries) := by
  induction entries generalizing tiers coins with
  | nil => exact represents
  | cons coin _ ih =>
    obtain ⟨apart, restNodup⟩ := nodup_cons.mp nodup
    refine ih (represents.place cutoff (absent coin.1 mem_cons_self)) restNodup fun key later => ?_
    rw [lookup_insert_of_ne (ne_of_mem_of_not_mem later apart)]
    exact absent key (.tail _ later)

theorem Represents.removeBoth (key : OutPointKey) : (tiers.removeBoth key).Represents (coins.erase key) := by
  have gone : (tiers.removeBoth key).get key = none :=
    get_eq_none.mpr ⟨lookup_erase_self .., lookup_erase_self ..⟩
  exact represents.update (fun _ => lookup_erase_of_ne) (fun _ => lookup_erase_of_ne)
    (fun _ => lookup_erase_of_ne) (.inl (lookup_erase_self ..)) (gone.trans (lookup_erase_self ..).symm)

theorem Represents.foldl_removeBoth (keys : List OutPointKey) :
    (keys.foldl Tiers.removeBoth tiers).Represents (coins.eraseAll keys) := by
  induction keys generalizing tiers coins with
  | nil => exact represents
  | cons key _ ih => exact ih (represents.removeBoth key)

theorem Represents.toCold (found : tiers.hot.lookup key = some coin) :
    Represents ⟨tiers.hot.erase key, tiers.cold.insert key coin⟩ coins := by
  have shown : coins.lookup key = some coin := (represents.shows key).symm.trans (get_of_hot found)
  refine represents.update (fun _ => lookup_erase_of_ne) (fun _ => lookup_insert_of_ne) (fun _ _ => rfl)
    (.inl (lookup_erase_self ..)) ?_
  rw [shown, get_of_cold (lookup_erase_self ..)]
  exact lookup_insert_self ..

theorem Represents.toHot (found : tiers.cold.lookup key = some coin) :
    Represents ⟨tiers.hot.insert key coin, tiers.cold.erase key⟩ coins := by
  have absent : tiers.hot.lookup key = none :=
    (represents.apart key).resolve_right (found ▸ Option.some_ne_none coin)
  have shown : coins.lookup key = some coin :=
    (represents.shows key).symm.trans ((get_of_cold absent).trans found)
  refine represents.update (fun _ => lookup_insert_of_ne) (fun _ => lookup_erase_of_ne) (fun _ _ => rfl)
    (.inr (lookup_erase_self ..)) ?_
  rw [shown]
  exact get_of_hot (lookup_insert_self ..)

theorem Represents.ageToCold (now hotWindowSecs : Nat) : (tiers.ageToCold now hotWindowSecs).1.Represents coins := by
  have aged : ∀ (keys : List OutPointKey) (aging : Tiers × Nat), aging.1.Represents coins →
      (keys.foldl ageOne aging).1.Represents coins := by
    intro keys
    induction keys with
    | nil => exact fun _ holds => holds
    | cons key _ ih =>
      intro aging holds
      refine ih (ageOne aging key) ?_
      unfold ageOne
      split
      · next coin found => exact holds.toCold found
      · exact holds
  exact aged _ (tiers, 0) represents

end

theorem flatten_chunksOf {α : Type} {size rounds : Nat} {items : List α} (positive : 0 < size)
    (enough : items.length ≤ rounds) : (chunksOf size rounds items).flatten = items := by
  induction rounds generalizing items with
  | zero =>
    rw [length_eq_zero_iff.mp (Nat.le_zero.mp enough)]
    rfl
  | succ rounds ih =>
    cases items with
    | nil => rfl
    | cons item rest =>
      have shorter : ((item :: rest).drop size).length ≤ rounds := by
        rw [length_drop]
        omega
      rw [chunksOf, flatten_cons, ih shorter, take_append_drop]

theorem prefetch_eq (tiers : Tiers) {outpoints : List OutPointKey} {sorted : List (OutPointKey × Nat)}
    {workers : Nat} (perm : sorted.Perm outpoints.zipIdx) (positive : 0 < workers) :
    tiers.prefetch sorted workers = tiers.getManySerial outpoints := by
  let answer : OutPointKey × Nat → Nat × OutPointKey × Option Utxo := fun entry =>
    (entry.2, entry.1, tiers.get entry.1)
  have fetched : (chunksOf (divCeil sorted.length workers) sorted.length sorted).flatMap
      tiers.getManySortedSerial = sorted.map answer := by
    change ((chunksOf _ _ sorted).map (List.map answer)).flatten = _
    rw [← map_flatten]
    cases sorted with
    | nil => rfl
    | cons entry rest =>
      have bigEnough : 0 < divCeil (entry :: rest).length workers :=
        Nat.div_pos (by rw [length_cons]; omega) positive
      rw [flatten_chunksOf bigEnough le_rfl]
  have restored : (sorted.map answer).insertionSort (fun left right => left.1 ≤ right.1) =
      outpoints.zipIdx.map answer := by
    refine Perm.eq_of_pairwise ?_ (pairwise_insertionSort _ _) ?_
      ((perm_insertionSort _ _).trans (perm.map answer))
    · intro left right isLeft isRight below above
      obtain ⟨first, isFirst, rfl⟩ := mem_map.mp ((perm_insertionSort _ _).mem_iff.mp isLeft)
      obtain ⟨second, isSecond, rfl⟩ := mem_map.mp isRight
      have sameIndex : first.2 = second.2 := Nat.le_antisymm below above
      have here := mem_zipIdx_iff_getElem?.mp (perm.mem_iff.mp isFirst)
      have there := mem_zipIdx_iff_getElem?.mp isSecond
      rw [sameIndex, there] at here
      rw [Prod.ext (Option.some.inj here).symm sameIndex]
    · have ascending : (outpoints.zipIdx.map Prod.snd).Pairwise (· ≤ ·) := by
        rw [zipIdx_map_snd]
        exact pairwise_le_range'
      exact pairwise_map.mpr (pairwise_map.mp ascending)
  rw [prefetch, fetched, restored, getManySerial, map_map]
  have inOrder : (outpoints.zipIdx.map Prod.fst).map (fun outpoint => (outpoint, tiers.get outpoint)) =
      outpoints.map fun outpoint => (outpoint, tiers.get outpoint) := by
    rw [zipIdx_map_fst]
  rw [← inOrder, map_map]
  rfl

theorem getMany_eq (tiers : Tiers) (available : Nat) (outpoints : List OutPointKey) :
    tiers.getMany available outpoints = tiers.getManySerial outpoints := by
  unfold getMany
  dsimp only
  split
  · rfl
  · next several => exact tiers.prefetch_eq (perm_insertionSort _ _) (by omega)

variable {coldIsEmpty : Bool}

def Flags (coldIsEmpty : Bool) (tiers : Tiers) : Prop :=
  coldIsEmpty = true → ∀ key, tiers.cold.lookup key = none

theorem flags_start (tiers : Tiers) : Flags (tiers.cold.keys = ∅) tiers := by
  intro none key
  by_contra present
  exact absurd (mem_keys_iff.mpr present) (of_decide_eq_true none ▸ Finset.notMem_empty key)

theorem Flags.probe (flags : Flags coldIsEmpty tiers) {key : OutPointKey} :
    coldIsEmpty = true ∨ tiers.cold.lookup key = none ↔ tiers.cold.lookup key = none :=
  ⟨fun either => either.elim (fun isEmpty => flags isEmpty key) id, .inr⟩

/-- The tiers hold the coins of the map, and a taken key is in no tier but perhaps the hot one again. -/
structure Tracked (coldIsEmpty : Bool) (taken : Finset OutPointKey) (tiers : Tiers) (coins : CoinTable) : Prop where
  represents : tiers.Represents coins
  flags : Flags coldIsEmpty tiers
  gone : ∀ key ∈ taken, tiers.cold.lookup key = none

section
variable {taken : Finset OutPointKey} (tracked : Tracked coldIsEmpty taken tiers coins)
include tracked

theorem take_lockstep (key : OutPointKey) :
    Lockstep (fun gave took => Tracked coldIsEmpty (insert key taken) gave.1 took.1 ∧ gave.2 = took.2)
      (take coldIsEmpty tiers key) (oneTable.take coins key) := by
  obtain ⟨represents, flags, gone⟩ := tracked
  have shown := represents.shows key
  unfold take
  dsimp only [oneTable]
  cases found : tiers.hot.lookup key with
  | some coin =>
    have absent : tiers.cold.lookup key = none :=
      (represents.apart key).resolve_left (found ▸ Option.some_ne_none coin)
    rw [get_of_hot found] at shown
    rw [← shown, ensure_of (flags.probe.mpr absent)]
    refine .ok ⟨⟨represents.update (fun _ => lookup_erase_of_ne) (fun _ _ => rfl) (fun _ => lookup_erase_of_ne)
      (.inl (lookup_erase_self ..)) ?_, flags, Finset.forall_mem_insert .. |>.mpr ⟨absent, gone⟩⟩, rfl⟩
    rw [get_of_cold (lookup_erase_self ..), lookup_erase_self]
    exact absent
  | none =>
    rw [get_of_cold found] at shown
    cases isEmpty : coldIsEmpty with
    | true =>
      rw [← shown, flags isEmpty key]
      exact .error _
    | false =>
      rw [← shown]
      cases tiers.cold.lookup key with
      | none => exact .error _
      | some _ =>
        have erased : ∀ other ∈ insert key taken, (tiers.cold.erase key).lookup other = none :=
          Finset.forall_mem_insert .. |>.mpr ⟨lookup_erase_self .., fun other member => by
            rw [lookup_erase, gone other member, ite_self]⟩
        refine .ok ⟨⟨represents.update (fun _ _ => rfl) (fun _ => lookup_erase_of_ne)
          (fun _ => lookup_erase_of_ne) (.inl found) ?_, nofun, erased⟩, rfl⟩
        rw [get_of_cold (by exact found), lookup_erase_self, lookup_erase_self]

theorem createHot_lockstep (coin : CoinEntry) (replacesSpent : Bool)
    (replaces : replacesSpent = true → coin.1 ∈ taken) :
    Lockstep (Tracked coldIsEmpty taken) (createHot coldIsEmpty tiers coin replacesSpent)
      (oneTable.create coins coin replacesSpent) := by
  obtain ⟨represents, flags, gone⟩ := tracked
  have shown := represents.shows coin.1
  unfold createHot
  dsimp only [oneTable]
  by_cases absent : tiers.cold.lookup coin.1 = none
  · rw [ensure_of (flags.probe.mpr absent)]
    refine .ensure ?_ fun _ => .ok ⟨represents.insertHot absent, flags, gone⟩
    rw [← shown, get_eq, absent, Option.or_none]
  have refused : ¬ (coins.lookup coin.1 = none ∨ replacesSpent = true) := by
    rintro (free | isReplaced)
    · exact absent (get_eq_none.mp (shown.trans free)).2
    · exact absent (gone _ (replaces isReplaced))
  rw [ensure_of_not (mt flags.probe.mp absent), ensure_of_not refused]
  exact .error _

end

theorem alike (coldIsEmpty : Bool) : CoinAccess.Alike (Tracked coldIsEmpty) (access coldIsEmpty) oneTable where
  take key holds := take_lockstep holds key
  create coin replacesSpent holds replaces := createHot_lockstep holds coin replacesSpent replaces

section
variable (represents : tiers.Represents coins)
include represents

theorem Represents.tracked : Tracked (tiers.cold.keys = ∅) ∅ tiers coins :=
  ⟨represents, flags_start tiers, nofun⟩

theorem applyWithUndo_lockstep (spent : List OutPointKey) (created : List CoinEntry) :
    Lockstep (fun applied result => applied.1.Represents result.1 ∧ applied.2 = result.2)
      (tiers.applyWithUndo spent created) (Chainstate.applyWithUndo coins spent created) :=
  ((alike _).applyWithUndo represents.tracked spent created).mono
    fun _ _ ⟨⟨_, tracked⟩, undo⟩ => ⟨tracked.represents, undo⟩

theorem applyValidatedChanges_lockstep (spent : List OutPointKey)
    (created : List CoinEntry) : Lockstep Represents (tiers.applyValidatedChanges spent created)
      (Chainstate.applyValidatedChanges coins spent created) :=
  ((alike _).applyValidatedWalk represents.tracked).mono fun _ _ ⟨_, tracked⟩ => tracked.represents

theorem Represents.undo {undo : UtxoUndo} {now hotWindowSecs : Nat} {undone : Tiers}
    (nodup : (undo.spent.map Prod.fst).Nodup)
    (performed : tiers.undo undo now hotWindowSecs = .ok undone) :
    undone.Represents ((coins.eraseAll undo.created).insertAll undo.spent) := by
  simp only [Tiers.undo, bind_eq_ok, pure_eq_ok] at performed
  obtain ⟨done, checked, rfl⟩ := performed
  refine (represents.foldl_removeBoth undo.created).foldl_place _ nodup fun key listed => ?_
  rw [lookup_eraseAll]
  split
  · rfl
  rename_i kept
  obtain ⟨entry, member, rfl⟩ := mem_map.mp listed
  have absent : ∀ (entries : List CoinEntry) (done : Unit),
      foldOutcome (fun _ => checkRestored tiers undo.created) () entries = .ok done →
      ∀ entry ∈ entries, entry.1 ∈ undo.created ∨ tiers.get entry.1 = none := by
    intro entries
    induction entries with
    | nil => simp
    | cons _ _ ih =>
      intro done succeeds
      rw [foldOutcome_cons, bind_eq_ok] at succeeds
      obtain ⟨_, isFirst, remaining⟩ := succeeds
      refine forall_mem_cons.mpr ⟨?_, ih done remaining⟩
      rw [get_eq_none]
      exact ensure_eq_ok.mp isFirst
  rw [← represents.shows]
  exact (absent _ _ checked entry member).resolve_left kept

end

theorem insertAll_empty (entries : CoinTable) :
    (∅ : CoinTable).insertAll (sortedEntries entries) = entries := by
  ext key : 1
  have nodup := (keySorted_sortedEntries entries).nodup
  rw [lookup_insertAll _ nodup, ofList_sortedEntries, lookup_empty, Option.or_none]

theorem represents_replaceAll (tiers : Tiers) (entries : CoinTable)
    (now hotWindowSecs : Nat) : (tiers.replaceAll entries now hotWindowSecs).Represents entries := by
  have placed := represents_empty.foldl_place (now - hotWindowSecs)
    (keySorted_sortedEntries entries).nodup fun key _ => lookup_empty key
  rwa [insertAll_empty] at placed

end Tiers

end Rbtc.Chainstate
