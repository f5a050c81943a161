import Rbtc.Chainstate.MdbxStore
import Rbtc.Foundation.Words
import Rbtc.Foundation.CursorPaging

/-! Pages of the MDBX chainstate (`snapshot_page`), whose merge compares keys of another order. -/

namespace Rbtc.Chainstate

open Foundation Bitcoin List Option

def encodeMdbxKey (key : OutPointKey) : List Nat :=
  bigEndian 32 key.txid.value ++ (byteWidth key.vout - 1) :: bigEndian (byteWidth key.vout) key.vout

def decodeMdbxKey (bytes : List Nat) : Except UtxoError OutPointKey := do
  let tag ← require bytes[32]? (.malformed "MDBX outpoint key")
  if 4 < tag + 1 ∨ bytes.length ≠ 33 + (tag + 1) ∨ (1 < tag + 1 ∧ bytes[33]? = some 0) then
    .error (.malformed "MDBX outpoint key")
  else return ⟨⟨ofBigEndian (bytes.take 32)⟩, ofBigEndian (bytes.drop 33)⟩

structure KeyFits (key : OutPointKey) : Prop where
  txid : key.txid.value < 256 ^ 32
  vout : key.vout < 256 ^ 4

theorem decodeMdbxKey_encode {key : OutPointKey} (fits : KeyFits key) :
    decodeMdbxKey (encodeMdbxKey key) = .ok key := by
  obtain ⟨width, isWidth⟩ : ∃ width, byteWidth key.vout = width + 1 :=
    Nat.exists_eq_succ_of_ne_zero (byteWidth_pos key.vout).ne'
  have few : width + 1 ≤ 4 := isWidth ▸ byteWidth_le (by decide) fits.vout
  have holds : key.vout < 256 ^ (width + 1) := isWidth ▸ lt_pow_byteWidth key.vout
  have shape : encodeMdbxKey key = bigEndian 32 key.txid.value ++ width :: bigEndian (width + 1) key.vout := by
    rw [encodeMdbxKey, isWidth, Nat.add_sub_cancel]
  have tag : (encodeMdbxKey key)[32]? = some width := by
    rw [shape]
    simp
  have length : (encodeMdbxKey key).length = 33 + (width + 1) := by
    rw [shape]
    simp
    omega
  have front : (encodeMdbxKey key).take 32 = bigEndian 32 key.txid.value := by
    rw [shape, take_left' (length_bigEndian ..)]
  have back : (encodeMdbxKey key).drop 33 = bigEndian (width + 1) key.vout := by
    rw [shape, drop_append]
    simp
  have minimal : ¬ (1 < width + 1 ∧ (encodeMdbxKey key)[33]? = some 0) := by
    rintro ⟨_, first⟩
    have large := pow_le_of_byteWidth isWidth (by omega)
    have isFirst : (encodeMdbxKey key)[33]? = some (key.vout / 256 ^ width % 256) := by
      rw [show 33 = 33 + 0 from rfl, ← getElem?_drop, back, bigEndian_succ]
      rfl
    have small : key.vout / 256 ^ width < 256 := Nat.div_lt_of_lt_mul (by rwa [pow_succ] at holds)
    have top := Nat.div_pos large (Nat.pow_pos (by decide))
    rw [isFirst, Nat.mod_eq_of_lt small] at first
    exact top.ne' (some.inj first)
  have accepted : ¬ (4 < width + 1 ∨ (encodeMdbxKey key).length ≠ 33 + (width + 1) ∨
      (1 < width + 1 ∧ (encodeMdbxKey key)[33]? = some 0)) := by
    rintro (wide | wrong | zero)
    · omega
    · exact wrong length
    · exact minimal zero
  rw [decodeMdbxKey, tag]
  simp only [require, ok_bind]
  rw [if_neg accepted, front, back, ofBigEndian_bigEndian fits.txid, ofBigEndian_bigEndian holds]
  rfl

theorem encodeMdbxKey_inj {left right : OutPointKey} (leftFits : KeyFits left) (rightFits : KeyFits right)
    (same : encodeMdbxKey left = encodeMdbxKey right) : left = right := by
  have decoded := decodeMdbxKey_encode leftFits
  rw [same, decodeMdbxKey_encode rightFits] at decoded
  exact (Except.ok.inj decoded).symm

variable {table : Table OutPointKey CompactCoin}

namespace MdbxStore

def orderedRows (table : Table OutPointKey CompactCoin) : List (OutPointKey × CompactCoin) :=
  (sortedEntries table).insertionSort fun lower upper => encodeMdbxKey lower.1 ≤ encodeMdbxKey upper.1

def rowsFrom (table : Table OutPointKey CompactCoin) : Option OutPointKey → List (OutPointKey × CompactCoin)
  | none => orderedRows table
  | some after =>
    ((orderedRows table).dropWhile fun row => encodeMdbxKey row.1 < encodeMdbxKey after).dropWhile
      fun row => encodeMdbxKey row.1 ≤ encodeMdbxKey after

section
variable {row : OutPointKey × CompactCoin}

theorem mem_orderedRows : row ∈ orderedRows table ↔ table.lookup row.1 = some row.2 := by
  rw [orderedRows, mem_insertionSort, mem_sortedEntries]

theorem rowsFrom_subset (table : Table OutPointKey CompactCoin) (after : Option OutPointKey) :
    rowsFrom table after ⊆ orderedRows table := by
  cases after with
  | none => exact List.Subset.refl _
  | some _ => exact ((dropWhile_sublist _).trans (dropWhile_sublist _)).subset

def keyCursor : RowCursor where
  rowsAfter := rowsFrom
  stored table after _ member := mem_orderedRows.mp (rowsFrom_subset table after member)

/-- Tables apart from each other, with a creation time for every coin. -/
structure Legible (store : MdbxStore) : Prop where
  apart : ∀ key, store.tiers.hot.lookup key ≠ none → store.tiers.cold.lookup key = none
  hotInterned : ∀ key coin, store.tiers.hot.lookup key = some coin → store.creationMtps.lookup coin.height ≠ none
  coldInterned : ∀ key coin, store.tiers.cold.lookup key = some coin → store.creationMtps.lookup coin.height ≠ none

/-- Legible tables whose keys fit their bytes. -/
structure Readable (store : MdbxStore) : Prop extends Legible store where
  hotFits : ∀ key, store.tiers.hot.lookup key ≠ none → KeyFits key
  coldFits : ∀ key, store.tiers.cold.lookup key ≠ none → KeyFits key

def databasePosition {γ : Type} (row : OutPointKey × γ) : List Nat := encodeMdbxKey row.1

variable (fits : ∀ key, table.lookup key ≠ none → KeyFits key)
include fits

theorem ascending_orderedRows : Ascending databasePosition (orderedRows table) := by
  have ordered : (orderedRows table).Pairwise fun lower upper => encodeMdbxKey lower.1 ≤ encodeMdbxKey upper.1 :=
    pairwise_insertionSort _ _
  have distinct : (orderedRows table).Pairwise fun lower upper => lower.1 ≠ upper.1 := by
    have keys : ((orderedRows table).map Prod.fst).Nodup := by
      have perm : (orderedRows table).Perm (sortedEntries table) := perm_insertionSort _ _
      rw [(perm.map _).nodup_iff, map_fst_sortedEntries]
      exact nodup_sortedKeys _
    exact pairwise_map.mp keys
  refine (ordered.and distinct).imp_of_mem fun isLower isUpper both => lt_of_le_of_ne both.1 fun same => both.2 ?_
  have lowerFits := fits _ (by rw [mem_orderedRows.mp isLower]; simp)
  have upperFits := fits _ (by rw [mem_orderedRows.mp isUpper]; simp)
  exact encodeMdbxKey_inj lowerFits upperFits same

theorem rowsFrom_eq (after : Option OutPointKey) :
    rowsFrom table after = behind databasePosition (after.map encodeMdbxKey) (orderedRows table) := by
  cases after with
  | none => exact behind_none.symm
  | some _ =>
    exact dropWhile_eq_behind (ascending_orderedRows fits) (fun _ => decide_eq_true_iff) (fun _ => decide_eq_true_iff)

end

section
variable {store : MdbxStore}

def decodedRow (store : MdbxStore) (row : OutPointKey × CompactCoin) : CoinEntry :=
  (row.1, row.2.utxo ((store.creationMtps.lookup row.2.height).getD 0))

def reported (store : MdbxStore) (table : Table OutPointKey CompactCoin) : List CoinEntry :=
  (orderedRows table).map store.decodedRow

def hotFirst (hot cold : CoinEntry) : Bool := decide (hot.1 < cold.1)

def TimesKnown (store : MdbxStore) (rows : List (OutPointKey × CompactCoin)) : Prop :=
  ∀ row ∈ rows, store.creationMtps.lookup row.2.height ≠ none

theorem decodeCoin_eq {coin : CompactCoin} (known : store.creationMtps.lookup coin.height ≠ none)
    (key : OutPointKey) : store.decodeCoin coin = .ok (store.decodedRow (key, coin)).2 := by
  obtain ⟨_, found⟩ := ne_none_iff_exists'.mp known
  simp [decodeCoin, readCreationMtp, decodedRow, found, require]

theorem nextRow_eq {rows : List (OutPointKey × CompactCoin)} (interned : store.TimesKnown rows) :
    store.nextRow rows = .ok (rows.head?.map store.decodedRow, rows.tail) := by
  cases rows with
  | nil => rfl
  | cons row _ =>
    rw [nextRow, decodeCoin_eq (interned row mem_cons_self) row.1]
    rfl

theorem mergePage_eq_merge (limit : Nat) {hots colds : List (OutPointKey × CompactCoin)}
    (hotInterned : store.TimesKnown hots) (coldInterned : store.TimesKnown colds)
    (apart : ∀ hot ∈ hots, ∀ cold ∈ colds, hot.1 ≠ cold.1) :
    store.mergePage limit (hots.head?.map store.decodedRow, hots.tail) (colds.head?.map store.decodedRow, colds.tail) =
      .ok (((hots.map store.decodedRow).merge (colds.map store.decodedRow) hotFirst).take limit) := by
  induction limit generalizing hots colds with
  | zero => rw [mergePage, take_zero]
  | succ _ ih =>
    cases hots with
    | nil =>
      cases colds with
      | nil => simp [mergePage]
      | cons cold colds =>
        have interned : store.TimesKnown colds := (forall_mem_cons.mp coldInterned).2
        have rest := @ih [] colds hotInterned interned (by simp)
        simp only [head?_nil, map_none, tail_nil] at rest
        simp only [head?_nil, head?_cons, map_none, map_some, tail_nil, tail_cons]
        rw [mergePage, nextRow_eq interned, ok_bind, rest]
        simp
    | cons hot hots =>
      have interned : store.TimesKnown hots := (forall_mem_cons.mp hotInterned).2
      cases colds with
      | nil =>
        have rest := @ih hots [] interned coldInterned (by simp)
        simp only [head?_nil, map_none, tail_nil] at rest
        simp only [head?_nil, head?_cons, map_none, map_some, tail_nil, tail_cons]
        rw [mergePage, nextRow_eq interned, ok_bind, rest]
        simp
      | cons cold colds =>
        have coldsInterned : store.TimesKnown colds := (forall_mem_cons.mp coldInterned).2
        have separate : (store.decodedRow hot).1 ≠ (store.decodedRow cold).1 :=
          apart hot mem_cons_self cold mem_cons_self
        simp only [head?_cons, map_some, tail_cons, map_cons]
        rw [mergePage, ensure_of separate, ok_bind, cons_merge_cons, hotFirst]
        simp only [decide_eq_true_eq]
        split
        · have rest := @ih hots (cold :: colds) interned coldInterned
            fun other member => apart other (mem_cons_of_mem _ member)
          simp only [head?_cons, map_some, tail_cons] at rest
          rw [nextRow_eq interned, ok_bind, rest]
          rfl
        have rest := @ih (hot :: hots) colds hotInterned coldsInterned
          fun other member third isThird => apart other member third (mem_cons_of_mem _ isThird)
        simp only [head?_cons, map_some, tail_cons] at rest
        rw [nextRow_eq coldsInterned, ok_bind, rest]
        rfl

theorem foldOutcome_scanRow {rows : List (OutPointKey × CompactCoin)} {entries : CoinTable}
    (known : store.TimesKnown rows) (nodup : (rows.map Prod.fst).Nodup)
    (fresh : ∀ row ∈ rows, entries.lookup row.1 = none) :
    foldOutcome store.scanRow entries rows = .ok (entries.insertAll (rows.map store.decodedRow)) := by
  induction rows generalizing entries with
  | nil => rfl
  | cons row rest ih =>
    obtain ⟨knownFirst, knownRest⟩ := forall_mem_cons.mp known
    rw [forall_mem_cons] at fresh
    rw [map_cons, nodup_cons] at nodup
    rw [foldOutcome_cons, scanRow, decodeCoin_eq knownFirst row.1, ok_bind, ensure_of fresh.1]
    refine ih knownRest nodup.2 fun later member => ?_
    have apart : later.1 ≠ row.1 := fun same => nodup.1 (same ▸ mem_map_of_mem member)
    rw [Table.lookup_insert, if_neg apart]
    exact fresh.2 later member

variable {row : CoinEntry}

theorem mem_reported :
    row ∈ store.reported table ↔ ∃ coin, table.lookup row.1 = some coin ∧ store.decodedRow (row.1, coin) = row := by
  rw [reported, List.mem_map]
  constructor
  · rintro ⟨stored, member, rfl⟩
    exact ⟨stored.2, mem_orderedRows.mp member, rfl⟩
  · rintro ⟨coin, found, same⟩
    exact ⟨(row.1, coin), mem_orderedRows.mpr found, same⟩

theorem stored_of_mem_reported (member : row ∈ store.reported table) : table.lookup row.1 ≠ none := by
  obtain ⟨_, found, -⟩ := mem_reported.mp member
  rw [found]
  exact some_ne_none _

theorem ascending_reported (fits : ∀ key, table.lookup key ≠ none → KeyFits key) :
    Ascending databasePosition (store.reported table) := pairwise_map.mpr (ascending_orderedRows fits)

theorem Readable.reported_apart (readable : store.Readable) :
    ∀ hot ∈ store.reported store.tiers.hot, ∀ cold ∈ store.reported store.tiers.cold,
      databasePosition hot ≠ databasePosition cold := by
  intro hot isHot cold isCold same
  have inHot := stored_of_mem_reported isHot
  have inCold := stored_of_mem_reported isCold
  have keys := encodeMdbxKey_inj (readable.hotFits _ inHot) (readable.coldFits _ inCold) same
  exact inCold (keys ▸ readable.apart _ inHot)

section
variable (legible : store.Legible)
include legible

theorem Legible.snapshotPage_eq (cursor : RowCursor) (after : Option OutPointKey) (limit : Nat) :
    store.snapshotPage cursor after limit =
      .ok ((((cursor.rowsAfter store.tiers.hot after).map store.decodedRow).merge
        ((cursor.rowsAfter store.tiers.cold after).map store.decodedRow) hotFirst).take limit) := by
  have hotKnown : store.TimesKnown (cursor.rowsAfter store.tiers.hot after) := fun row member =>
    legible.hotInterned row.1 row.2 (cursor.stored _ after row member)
  have coldKnown : store.TimesKnown (cursor.rowsAfter store.tiers.cold after) := fun row member =>
    legible.coldInterned row.1 row.2 (cursor.stored _ after row member)
  have apart : ∀ hot ∈ cursor.rowsAfter store.tiers.hot after, ∀ cold ∈ cursor.rowsAfter store.tiers.cold after,
      hot.1 ≠ cold.1 := by
    intro hot isHot cold isCold same
    have absent := legible.apart hot.1 (by simp [cursor.stored store.tiers.hot after hot isHot])
    rw [same, cursor.stored store.tiers.cold after cold isCold] at absent
    cases absent
  rw [snapshotPage]
  split
  · next zero => rw [zero, take_zero]
  · rw [← mergePage_eq_merge limit hotKnown coldKnown apart, nextRow_eq hotKnown, nextRow_eq coldKnown]
    rfl

theorem Legible.get_eq_some (row : CoinEntry) :
    row ∈ store.reported store.tiers.hot ∨ row ∈ store.reported store.tiers.cold ↔
    store.get row.1 = .ok (some row.2) := by
  have answers : ∀ coin, store.tiers.lookup row.1 = some coin → store.creationMtps.lookup coin.height ≠ none →
      (store.get row.1 = .ok (some row.2) ↔ store.decodedRow (row.1, coin) = row) := by
    intro coin found known
    rw [get, found]
    simp only [decodeCoin_eq known row.1]
    constructor
    · intro same
      exact Prod.ext rfl (some.inj (Except.ok.inj same))
    · intro same
      rw [same]
      rfl
  rw [mem_reported, mem_reported]
  cases inHot : store.tiers.hot.lookup row.1 with
  | some coin =>
    have absent := legible.apart row.1 (by rw [inHot]; simp)
    have found : store.tiers.lookup row.1 = some coin := by rw [CoinTiers.lookup, inHot, some_or]
    rw [answers coin found (legible.hotInterned _ _ inHot), absent]
    simp
  | none =>
    cases inCold : store.tiers.cold.lookup row.1 with
    | some coin =>
      have found : store.tiers.lookup row.1 = some coin := by rw [CoinTiers.lookup, inHot, inCold, none_or]
      rw [answers coin found (legible.coldInterned _ _ inCold)]
      simp
    | none =>
      have found : store.tiers.lookup row.1 = none := by rw [CoinTiers.lookup, inHot, inCold, none_or]
      rw [get, found]
      simp

theorem Legible.snapshotEntries_eq : ∃ entries, store.snapshotEntries = .ok entries ∧
      ∀ row : CoinEntry, entries.lookup row.1 = some row.2 ↔ store.get row.1 = .ok (some row.2) := by
  have known : store.TimesKnown (sortedEntries store.tiers.hot ++ sortedEntries store.tiers.cold) := by
    intro row member
    rcases mem_append.mp member with inHot | inCold
    · exact legible.hotInterned _ _ (mem_sortedEntries.mp inHot)
    · exact legible.coldInterned _ _ (mem_sortedEntries.mp inCold)
  have nodup : ((sortedEntries store.tiers.hot ++ sortedEntries store.tiers.cold).map Prod.fst).Nodup := by
    rw [map_append, map_fst_sortedEntries, map_fst_sortedEntries]
    refine nodup_append'.mpr ⟨nodup_sortedKeys _, nodup_sortedKeys _, fun key inHot inCold => ?_⟩
    rw [mem_sortedKeys, mem_keys_iff] at inHot inCold
    exact inCold (legible.apart key inHot)
  refine ⟨_, foldOutcome_scanRow known nodup fun row _ => Table.lookup_empty row.1, fun row => ?_⟩
  have decodedNodup : (((sortedEntries store.tiers.hot ++ sortedEntries store.tiers.cold).map
      store.decodedRow).map Prod.fst).Nodup := by
    rw [List.map_map]
    exact nodup
  have listed : ∀ table, row ∈ (sortedEntries table).map store.decodedRow ↔ row ∈ store.reported table := fun table =>
    ((perm_insertionSort _ (sortedEntries table)).map store.decodedRow).mem_iff.symm
  rw [Table.lookup_insertAll _ decodedNodup, Table.lookup_empty, or_none, ← legible.get_eq_some, ← listed, ← listed,
    ← mem_append, ← map_append]
  exact ⟨Table.mem_of_lookup_ofList, Table.lookup_ofList_of_mem decodedNodup⟩

theorem Legible.get_of_mem_page {cursor : RowCursor} {after : Option OutPointKey} {limit : Nat} {page : List CoinEntry}
    (isPage : store.snapshotPage cursor after limit = .ok page) {entry : CoinEntry} (member : entry ∈ page) :
    store.get entry.1 = .ok (some entry.2) := by
  rw [legible.snapshotPage_eq] at isPage
  cases isPage
  refine (legible.get_eq_some entry).mp ((mem_merge.mp (mem_of_mem_take member)).imp ?_ ?_) <;>
  · intro listed
    obtain ⟨row, isRow, rfl⟩ := List.mem_map.mp listed
    exact mem_map_of_mem (mem_orderedRows.mpr (cursor.stored _ after row isRow))

end

theorem Readable.snapshotPage_eq_merge (readable : store.Readable) (after : Option OutPointKey) (limit : Nat) :
    store.snapshotPage keyCursor after limit =
      .ok (((behind databasePosition (after.map encodeMdbxKey) (store.reported store.tiers.hot)).merge
        (behind databasePosition (after.map encodeMdbxKey) (store.reported store.tiers.cold)) hotFirst).take
          limit) := by
  have moved : ∀ table : Table OutPointKey CompactCoin, (∀ key, table.lookup key ≠ none → KeyFits key) →
      behind databasePosition (after.map encodeMdbxKey) (store.reported table) =
        (rowsFrom table after).map store.decodedRow := by
    intro table fits
    rw [rowsFrom_eq fits, behind, reported, List.filter_map]
    rfl
  rw [readable.snapshotPage_eq, moved _ readable.hotFits, moved _ readable.coldFits]
  rfl

structure FollowsIn (table : Table OutPointKey CompactCoin) (key next : OutPointKey) : Prop where
  stored : table.lookup next ≠ none
  above : encodeMdbxKey key < encodeMdbxKey next
  least : ∀ other, table.lookup other ≠ none → encodeMdbxKey key < encodeMdbxKey other →
    encodeMdbxKey next ≤ encodeMdbxKey other

structure KeysInStep (store : MdbxStore) : Prop where
  hot : ∀ key, store.tiers.hot.lookup key ≠ none → ∀ next, FollowsIn store.tiers.cold key next → key < next
  cold : ∀ key, store.tiers.cold.lookup key ≠ none → ∀ next, FollowsIn store.tiers.hot key next → key < next

theorem followsIn_of_nextIn {next : CoinEntry} (isNext : NextIn databasePosition (store.reported table) row next) :
    FollowsIn table row.1 next.1 where
  stored := stored_of_mem_reported isNext.member
  above := isNext.above
  least other stored above := by
    obtain ⟨coin, found⟩ := ne_none_iff_exists'.mp stored
    exact isNext.least (store.decodedRow (other, coin)) (mem_reported.mpr ⟨coin, found, rfl⟩) above

theorem FollowsIn.nextIn {next : OutPointKey} (row : CoinEntry) (follows : FollowsIn table row.1 next) :
    ∃ coin, NextIn databasePosition (store.reported table) row (store.decodedRow (next, coin)) := by
  obtain ⟨coin, found⟩ := ne_none_iff_exists'.mp follows.stored
  exact ⟨coin, mem_reported.mpr ⟨coin, found, rfl⟩, follows.above, fun other member =>
    follows.least other.1 (stored_of_mem_reported member)⟩

theorem keysInStep_iff : store.KeysInStep ↔
    InStep databasePosition hotFirst (store.reported store.tiers.hot) (store.reported store.tiers.cold) := by
  constructor
  · intro inStep
    refine ⟨fun row member next isNext => ?_, fun row member next isNext => ?_⟩
    · exact decide_eq_true (inStep.hot row.1 (stored_of_mem_reported member) next.1 (followsIn_of_nextIn isNext))
    · exact decide_eq_false (inStep.cold row.1 (stored_of_mem_reported member) next.1
        (followsIn_of_nextIn isNext)).not_gt
  intro inStep
  refine ⟨fun key stored next follows => ?_, fun key stored next follows => ?_⟩
  · obtain ⟨coin, found⟩ := ne_none_iff_exists'.mp stored
    have member : store.decodedRow (key, coin) ∈ store.reported store.tiers.hot := mem_reported.mpr ⟨coin, found, rfl⟩
    obtain ⟨_, isNext⟩ := FollowsIn.nextIn (store.decodedRow (key, coin)) follows
    exact of_decide_eq_true (inStep.ofLeft _ member _ isNext)
  obtain ⟨coin, found⟩ := ne_none_iff_exists'.mp stored
  have member : store.decodedRow (key, coin) ∈ store.reported store.tiers.cold := mem_reported.mpr ⟨coin, found, rfl⟩
  obtain ⟨_, isNext⟩ := FollowsIn.nextIn (store.decodedRow (key, coin)) follows
  have notBelow := of_decide_eq_false (inStep.ofRight _ member _ isNext)
  exact lt_of_le_of_ne (not_lt.mp notBelow) fun same => follows.above.ne (congrArg encodeMdbxKey same)

end

/-- Pages of any sizes visit every coin once exactly when the keys of the two tables are in step. -/
theorem snapshot_pages_complete_iff {store : MdbxStore} (readable : store.Readable) :
    (∀ sizes : Nat → Nat, (∀ round, 0 < sizes round) → ∃ visited,
      PagesThrough (store.snapshotPage keyCursor) Prod.fst none sizes visited ∧
      (visited.Pairwise fun lower upper => encodeMdbxKey lower.1 < encodeMdbxKey upper.1) ∧
      ∀ row, row ∈ visited ↔ store.get row.1 = .ok (some row.2)) ↔ store.KeysInStep := by
  rw [keysInStep_iff]
  have ascendingHot : Ascending databasePosition (store.reported store.tiers.hot) := ascending_reported readable.hotFits
  have ascendingCold : Ascending databasePosition (store.reported store.tiers.cold) :=
    ascending_reported readable.coldFits
  constructor
  · intro visits
    obtain ⟨_, pages, ascending, members⟩ := visits (fun _ => 1) fun _ => Nat.one_pos
    have inStep := inStep_of_pagesThrough encodeMdbxKey ascendingHot ascendingCold readable.reported_apart
      (fun after => readable.snapshotPage_eq_merge after 1) pages ascending fun row => by
        rw [members, ← readable.get_eq_some, unread_none, unread_none]
    rwa [unread_none, unread_none] at inStep
  intro inStep sizes positive
  have ascending := ascending_merge ascendingHot ascendingCold readable.reported_apart inStep
  refine ⟨_, pagesThrough_of_ascending encodeMdbxKey ascending (fun after size => ?_) positive, ascending,
    fun row => ?_⟩
  · rw [readable.snapshotPage_eq_merge after size,
      merge_behind ascendingHot ascendingCold readable.reported_apart inStep]
    rfl
  · rw [mem_merge, readable.get_eq_some]

def oldCoin : CompactCoin := ⟨5000, 7, false, [0x51]⟩

def twoOutputs (hotVout coldVout : Nat) : MdbxStore :=
  { tiers := ⟨Table.insert ∅ ⟨⟨1⟩, hotVout⟩ oldCoin, Table.insert ∅ ⟨⟨1⟩, coldVout⟩ oldCoin⟩
    undo := ∅
    creationMtps := Table.insert ∅ 7 1600000000
    tip := none }

variable {vout : Nat} {key : OutPointKey}

theorem twoOutputs_lookup {coin : CompactCoin}
    (found : (Table.insert ∅ ⟨⟨1⟩, vout⟩ oldCoin : Table OutPointKey CompactCoin).lookup key = some coin) :
    key = ⟨⟨1⟩, vout⟩ ∧ coin = oldCoin := by
  rw [Table.lookup_insert] at found
  split at found
  · next same => exact ⟨same, (some.inj found).symm⟩
  · cases found

theorem twoOutputs_key
    (stored : (Table.insert ∅ ⟨⟨1⟩, vout⟩ oldCoin : Table OutPointKey CompactCoin).lookup key ≠ none) :
    key = ⟨⟨1⟩, vout⟩ := by
  obtain ⟨_, found⟩ := ne_none_iff_exists'.mp stored
  exact (twoOutputs_lookup found).1

theorem twoOutputs_readable {hotVout coldVout : Nat} (hotFits : hotVout < 256 ^ 4) (coldFits : coldVout < 256 ^ 4)
    (distinct : hotVout ≠ coldVout) : (twoOutputs hotVout coldVout).Readable where
  hotFits key stored := twoOutputs_key stored ▸ ⟨(by decide : 1 < 256 ^ 32), hotFits⟩
  coldFits key stored := twoOutputs_key stored ▸ ⟨(by decide : 1 < 256 ^ 32), coldFits⟩
  apart key stored := by
    by_contra inCold
    have same := (twoOutputs_key stored).symm.trans (twoOutputs_key inCold)
    exact distinct (congrArg OutPointKey.vout same)
  hotInterned key coin found := by
    rw [(twoOutputs_lookup found).2]
    exact (by decide : (Table.insert ∅ 7 1600000000).lookup 7 ≠ none)
  coldInterned key coin found := by
    rw [(twoOutputs_lookup found).2]
    exact (by decide : (Table.insert ∅ 7 1600000000).lookup 7 ≠ none)

theorem snapshot_pages_complete_two_outputs : ∃ visited,
    PagesThrough ((twoOutputs 0 1).snapshotPage keyCursor) Prod.fst none (fun _ => 1) visited ∧
      (visited.Pairwise fun lower upper => encodeMdbxKey lower.1 < encodeMdbxKey upper.1) ∧
      ∀ row, row ∈ visited ↔ (twoOutputs 0 1).get row.1 = .ok (some row.2) := by
  have inStep : (twoOutputs 0 1).KeysInStep := by
    constructor
    · intro key stored next follows
      rw [twoOutputs_key stored, twoOutputs_key follows.stored]
      decide
    intro key stored next follows
    have above := follows.above
    rw [twoOutputs_key stored, twoOutputs_key follows.stored] at above
    exact absurd above (by decide)
  exact (snapshot_pages_complete_iff (twoOutputs_readable (by decide) (by decide) (by decide))).mpr inStep (fun _ => 1)
    fun _ => Nat.one_pos

/-- Output 256 is hot and output 1 of the same transaction cold, which no page then reports. -/
theorem snapshot_pages_skip_output : (twoOutputs 256 1).Readable ∧
    PagesThrough ((twoOutputs 256 1).snapshotPage keyCursor) Prod.fst none (fun _ => 1)
      [(⟨⟨1⟩, 256⟩, oldCoin.utxo 1600000000)] ∧
    (twoOutputs 256 1).get ⟨⟨1⟩, 1⟩ = .ok (some (oldCoin.utxo 1600000000)) := by
  refine ⟨twoOutputs_readable (by decide) (by decide) (by decide), ?_, by decide +kernel⟩
  have first : (twoOutputs 256 1).snapshotPage keyCursor none 1 =
    .ok ([] ++ [(⟨⟨1⟩, 256⟩, oldCoin.utxo 1600000000)]) := by
    decide +kernel
  have second : (twoOutputs 256 1).snapshotPage keyCursor (some ⟨⟨1⟩, 256⟩) 1 = .ok [] := by
    decide +kernel
  have later : PagesThrough ((twoOutputs 256 1).snapshotPage keyCursor) Prod.fst (some ⟨⟨1⟩, 256⟩) (fun _ => 1) [] :=
    .done second
  have pages : PagesThrough ((twoOutputs 256 1).snapshotPage keyCursor) Prod.fst none (fun _ => 1)
      ([] ++ [(⟨⟨1⟩, 256⟩, oldCoin.utxo 1600000000)] ++ []) := .more first later
  exact pages

end MdbxStore

end Rbtc.Chainstate
