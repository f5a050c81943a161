import Rbtc.Chainstate.Tiers

/-! Pages over both tiers, re-tiering, snapshots, and whole runs of the UTXO store. -/

namespace Rbtc.Chainstate

open Foundation Bitcoin Table List Tiers

def TierRow.ofEntry (isHot : Bool) (entry : CoinEntry) : TierRow := ⟨entry.1, entry.2, isHot⟩

def TierRow.precedes (left right : TierRow) : Bool := decide (left.key ≤ right.key)

/-- Rows of both tiers in the order of their keys. -/
def mergedRows (hot cold : List CoinEntry) : List TierRow :=
  (hot.map (.ofEntry true)).merge (cold.map (.ofEntry false)) TierRow.precedes

variable {coins : CoinTable}

namespace Tiers

variable {tiers : Tiers}

theorem mergePage_eq {limit : Nat} {hot cold : List CoinEntry}
    (apart : ∀ left ∈ hot, ∀ right ∈ cold, left.1 ≠ right.1) :
    mergePage limit hot cold = .ok ((mergedRows hot cold).take limit) := by
  induction limit generalizing hot cold with
  | zero => rfl
  | succ _ ih =>
    match hot, cold with
    | [], [] => simp [mergePage, mergedRows]
    | _ :: rest, [] =>
      have merged := @ih rest [] nofun
      rw [mergedRows, map_nil, merge_right] at merged ⊢
      rw [mergePage, merged]
      rfl
    | [], _ :: rest =>
      have merged := @ih [] rest nofun
      rw [mergedRows, map_nil, nil_merge] at merged ⊢
      rw [mergePage, merged]
      rfl
    | (hotKey, hotCoin) :: restHot, (coldKey, coldCoin) :: restCold =>
      obtain ⟨firstApart, restApart⟩ := forall_mem_cons.mp apart
      rw [mergePage, mergedRows, map_cons, map_cons, cons_merge_cons]
      by_cases below : hotKey < coldKey
      · have first : (TierRow.ofEntry true (hotKey, hotCoin)).precedes (.ofEntry false (coldKey, coldCoin)) = true :=
          decide_eq_true below.le
        rw [if_pos below, if_pos first, ih restApart]
        rfl
      · have above : coldKey < hotKey := (firstApart _ mem_cons_self).lt_or_gt.resolve_left below
        have second : ¬ (TierRow.ofEntry true (hotKey, hotCoin)).precedes (.ofEntry false (coldKey, coldCoin)) = true :=
          fun first => below.elim ((of_decide_eq_true first).lt_of_ne (firstApart _ mem_cons_self))
        rw [if_neg below, if_pos above, if_neg second,
          @ih ((hotKey, hotCoin) :: restHot) restCold fun left isLeft right isRight =>
            apart left isLeft right (.tail _ isRight)]
        rfl

theorem mem_rowsAfter {table : CoinTable} {after : Option OutPointKey}
    {entry : CoinEntry} : entry ∈ rowsAfter table after ↔
      table.lookup entry.1 = some entry.2 ∧ ∀ cursor ∈ after, cursor < entry.1 := by
  rw [rowsAfter, mem_filter, mem_sortedEntries, decide_eq_true_eq]

theorem keySorted_rowsAfter (table : CoinTable) (after : Option OutPointKey) :
    KeySorted (rowsAfter table after) :=
  (keySorted_sortedEntries table).filter _

section
variable (represents : tiers.Represents coins) (after : Option OutPointKey)
include represents after

theorem Represents.rows_apart :
    ∀ left ∈ rowsAfter tiers.hot after, ∀ right ∈ rowsAfter tiers.cold after, left.1 ≠ right.1 := by
  intro left isLeft right isRight same
  have hot := (mem_rowsAfter.mp isLeft).1
  have cold := (mem_rowsAfter.mp isRight).1
  rcases represents.apart left.1 with absent | absent
  · cases hot.symm.trans absent
  · cases cold.symm.trans (same ▸ absent)

/-- A page over both tiers has every key once, with a coin its tier holds. -/
theorem Represents.mergePage (limit : Nat) :
    ∃ page, Chainstate.mergePage limit (rowsAfter tiers.hot after) (rowsAfter tiers.cold after) = .ok page ∧
      (page.map TierRow.key).Nodup ∧ (∀ row ∈ page, row.isHot = true → tiers.hot.lookup row.key = some row.coin) ∧
      ∀ row ∈ page, row.isHot = false → tiers.cold.lookup row.key = some row.coin := by
  have apart := represents.rows_apart after
  have source : ∀ row ∈ (mergedRows (rowsAfter tiers.hot after) (rowsAfter tiers.cold after)).take limit,
      (∃ entry ∈ rowsAfter tiers.hot after, .ofEntry true entry = row) ∨
        ∃ entry ∈ rowsAfter tiers.cold after, .ofEntry false entry = row := by
    intro row listed
    simpa only [mem_map] using mem_merge.mp (mem_of_mem_take listed)
  refine ⟨_, mergePage_eq apart, ?_, fun row listed isHot => ?_, fun row listed isCold => ?_⟩
  · refine .sublist ((take_sublist ..).map _) (((merge_perm_append _).map _).nodup_iff.mpr ?_)
    rw [map_append, map_map, map_map, nodup_append]
    refine ⟨(keySorted_rowsAfter ..).nodup, (keySorted_rowsAfter ..).nodup, fun left isLeft right isRight => ?_⟩
    obtain ⟨first, isFirst, rfl⟩ := mem_map.mp isLeft
    obtain ⟨second, isSecond, rfl⟩ := mem_map.mp isRight
    exact apart first isFirst second isSecond
  · rcases source row listed with ⟨entry, isEntry, rfl⟩ | ⟨_, -, rfl⟩
    · exact (mem_rowsAfter.mp isEntry).1
    · cases isHot
  · rcases source row listed with ⟨_, -, rfl⟩ | ⟨entry, isEntry, rfl⟩
    · cases isCold
    · exact (mem_rowsAfter.mp isEntry).1

end

variable {tipHeight hotWindowBlocks : Nat} {state : HeightRetierState}

theorem Represents.retierRow {row : TierRow} {next : Tiers × HeightRetierState} (represents : tiers.Represents coins)
    (hot : row.isHot = true → tiers.hot.lookup row.key = some row.coin)
    (cold : row.isHot = false → tiers.cold.lookup row.key = some row.coin)
    (moved : Chainstate.retierRow tipHeight hotWindowBlocks (tiers, state) row = .ok next) :
    next.1.Represents coins ∧ ∀ other, other ≠ row.key → next.1.hot.lookup other = tiers.hot.lookup other ∧
        next.1.cold.lookup other = tiers.cold.lookup other := by
  simp only [Chainstate.retierRow, bind_eq_ok, ensure_eq_ok, exists_const] at moved
  obtain ⟨-, moved⟩ := moved
  split at moved
  · next isHot _ =>
    simp only [bind_eq_ok, pure_eq_ok] at moved
    obtain ⟨_, -, _, -, rfl⟩ := moved
    exact ⟨represents.toCold (hot isHot), fun _ distinct =>
      ⟨lookup_erase_of_ne distinct, lookup_insert_of_ne distinct⟩⟩
  · next isCold _ =>
    simp only [bind_eq_ok, pure_eq_ok] at moved
    obtain ⟨_, -, _, -, rfl⟩ := moved
    exact ⟨represents.toHot (cold isCold), fun _ distinct =>
      ⟨lookup_insert_of_ne distinct, lookup_erase_of_ne distinct⟩⟩
  · cases moved
    exact ⟨represents, fun _ _ => ⟨rfl, rfl⟩⟩

theorem Represents.foldOutcome_retierRow
    {page : List TierRow} {final : Tiers × HeightRetierState} (represents : tiers.Represents coins)
    (distinct : (page.map TierRow.key).Nodup)
    (hot : ∀ row ∈ page, row.isHot = true → tiers.hot.lookup row.key = some row.coin)
    (cold : ∀ row ∈ page, row.isHot = false → tiers.cold.lookup row.key = some row.coin)
    (moved : foldOutcome (Chainstate.retierRow tipHeight hotWindowBlocks) (tiers, state) page = .ok final) :
    final.1.Represents coins := by
  induction page generalizing tiers state with
  | nil =>
    cases moved
    exact represents
  | cons row rest ih =>
    obtain ⟨apart, restDistinct⟩ := nodup_cons.mp distinct
    obtain ⟨firstHot, restHot⟩ := forall_mem_cons.mp hot
    obtain ⟨firstCold, restCold⟩ := forall_mem_cons.mp cold
    rw [foldOutcome_cons, bind_eq_ok] at moved
    obtain ⟨⟨_, _⟩, first, remaining⟩ := moved
    obtain ⟨holds, kept⟩ := represents.retierRow firstHot firstCold first
    have away : ∀ other ∈ rest, other.key ≠ row.key := fun other later =>
      ne_of_mem_of_not_mem (mem_map_of_mem later) apart
    exact ih holds restDistinct
      (fun other later isHot => ((kept other.key (away other later)).1).trans (restHot other later isHot))
      (fun other later isCold =>
        ((kept other.key (away other later)).2).trans (restCold other later isCold)) remaining

end Tiers

theorem RedbUtxoStore.retierByHeightBatch_represents {store : RedbUtxoStore}
    {coins : CoinTable} {tipHeight hotWindowBlocks scanLimit : Nat}
    {result : RedbUtxoStore × HeightRetierProgress} (represents : store.Represents coins)
    (performed : store.retierByHeightBatch tipHeight hotWindowBlocks scanLimit = .ok result) :
    result.1.Represents coins := by
  obtain ⟨page, isPage, distinct, hot, cold⟩ :=
    represents.mergePage (store.retierState tipHeight hotWindowBlocks).after scanLimit
  simp only [retierByHeightBatch, bind_eq_ok, ensure_eq_ok, exists_const, isPage, Except.ok.injEq,
    exists_eq_left'] at performed
  obtain ⟨-, performed⟩ := performed
  split at performed
  · cases performed
    exact represents
  simp only [retierPage, bind_eq_ok, pure_eq_ok] at performed
  obtain ⟨⟨_, _⟩, isMoved, _, -, rfl⟩ := performed
  exact represents.foldOutcome_retierRow distinct hot cold isMoved

def delivered (entries : List (Except UtxoError CoinEntry)) : List CoinEntry :=
  entries.filterMap Except.toOption

theorem foldOutcome_insertSnapshotEntry {cutoff expectedCount expectedRecordsBytes : Nat}
    {inserting final : InsertingSnapshot} {entries : List (Except UtxoError CoinEntry)}
    (sorted : KeySorted inserting.records)
    (represents : inserting.tiers.Represents ((∅ : CoinTable).insertAll inserting.records))
    (inserted : foldOutcome (insertSnapshotEntry cutoff expectedCount expectedRecordsBytes) inserting
      entries = .ok final) : final.records = inserting.records ++ delivered entries ∧
      final.tiers.Represents ((∅ : CoinTable).insertAll final.records) := by
  induction entries generalizing inserting with
  | nil =>
    cases inserted
    exact ⟨(append_nil _).symm, represents⟩
  | cons _ _ ih =>
    rw [foldOutcome_cons, bind_eq_ok] at inserted
    obtain ⟨_, first, remaining⟩ := inserted
    simp only [insertSnapshotEntry, bind_eq_ok, ensure_eq_ok, exists_const, pure_eq_ok] at first
    obtain ⟨coin, isCoin, ordered, _, -, _, -, -, -, rfl⟩ := first
    have sortedNext := sorted.concat ordered
    have absent : ((∅ : CoinTable).insertAll inserting.records).lookup coin.1 = none := by
      rw [lookup_insertAll _ sorted.nodup, lookup_empty, Option.or_none, lookup_ofList_eq_none]
      have distinct := sortedNext.nodup
      rw [map_append, nodup_append] at distinct
      exact fun listed => distinct.2.2 _ listed _ (mem_singleton_self _) rfl
    have placed := represents.place cutoff absent
    have extended : (∅ : CoinTable).insertAll (inserting.records ++ [coin]) =
        ((∅ : CoinTable).insertAll inserting.records).insert coin.1 coin.2 :=
      foldl_append
    rw [← extended] at placed
    obtain ⟨records, holds⟩ := ih sortedNext placed remaining
    refine ⟨records.trans ?_, holds⟩
    rw [isCoin, append_assoc]
    rfl

theorem Tiers.assumeSnapshotEntries_represents {δ : Type} [DecidableEq δ]
    {digest : List CoinEntry → δ} {tiers assumed : Tiers} {content : SnapshotContentIdentity δ}
    {entries : List (Except UtxoError CoinEntry)} {now hotWindowSecs : Nat}
    (performed : tiers.assumeSnapshotEntries digest content entries now hotWindowSecs = .ok assumed) :
    assumed.Represents ((∅ : CoinTable).insertAll (delivered entries)) := by
  simp only [assumeSnapshotEntries, bind_eq_ok, ensure_eq_ok, exists_const, mapError_eq_ok, pure_eq_ok]
    at performed
  obtain ⟨isEmpty, _, isInserted, -, -, -, rfl⟩ := performed
  rw [isEmpty_iff.mp isEmpty] at isInserted
  obtain ⟨records, holds⟩ := @foldOutcome_insertSnapshotEntry _ _ _ ⟨.empty, [], 0⟩ _ _ .nil
    represents_empty isInserted
  rw [records] at holds
  exact holds

section
variable {δ : Type} [DecidableEq δ] {digest : List CoinEntry → δ}

variable (digest) in
/-- The stores that mutations reach from an empty one, with the logical map beside them. -/
inductive RedbUtxoStore.Reached : RedbUtxoStore → CoinTable → Prop
  | opened : Reached ⟨.empty, none⟩ ∅
  | apply {store coins spent created tiers} (reached : Reached store coins)
      (performed : store.apply spent created = .ok tiers) :
      Reached { store with toTiers := tiers } ((coins.eraseAll spent).insertAll created)
  | applyWithUndo {store coins spent created tiers undo} (reached : Reached store coins)
      (performed : store.applyWithUndo spent created = .ok (tiers, undo)) :
      Reached { store with toTiers := tiers } ((coins.eraseAll spent).insertAll created)
  | undo {store coins undo now hotWindowSecs tiers} (reached : Reached store coins)
      (once : (undo.spent.map Prod.fst).Nodup) (performed : store.undo undo now hotWindowSecs = .ok tiers) :
      Reached { store with toTiers := tiers } ((coins.eraseAll undo.created).insertAll undo.spent)
  | ageToCold {store coins now hotWindowSecs} (reached : Reached store coins) :
      Reached { store with toTiers := (store.ageToCold now hotWindowSecs).1 } coins
  | retierByHeightBatch {store coins tipHeight hotWindowBlocks scanLimit result} (reached : Reached store coins)
      (performed : store.retierByHeightBatch tipHeight hotWindowBlocks scanLimit = .ok result) :
      Reached result.1 coins
  | replaceAll {store coins entries now hotWindowSecs} (reached : Reached store coins) :
      Reached { store with toTiers := store.replaceAll entries now hotWindowSecs } entries
  | assumeSnapshotEntries {store coins content entries now hotWindowSecs tiers} (reached : Reached store coins)
      (performed : store.assumeSnapshotEntries digest content entries now hotWindowSecs = .ok tiers) :
      Reached { store with toTiers := tiers } ((∅ : CoinTable).insertAll (delivered entries))
  | applyValidatedChanges {store coins tiers} {change : NetChange OutPointKey Utxo} (reached : Reached store coins)
      (performed : store.applyValidatedChanges (sortedKeys change.spent) (sortedEntries change.created) = .ok tiers) :
      Reached { store with toTiers := tiers }
        ((coins.eraseAll (sortedKeys change.spent)).insertAll (sortedEntries change.created))

theorem Tiers.Represents.applyWithUndo {tiers : Tiers}
    {spent : List OutPointKey} {created : List CoinEntry} {applied : Tiers × UtxoUndo}
    (represents : tiers.Represents coins) (performed : tiers.applyWithUndo spent created = .ok applied) :
    applied.1.Represents ((coins.eraseAll spent).insertAll created) := by
  obtain ⟨_, onMap, holds, -⟩ := (applyWithUndo_lockstep represents spent created).of_ok performed
  obtain ⟨-, rfl⟩ := applyWithUndo_eq_ok.mp onMap
  exact holds

theorem RedbUtxoStore.Reached.represents {store : RedbUtxoStore}
    (reached : Reached digest store coins) : store.Represents coins := by
  induction reached with
  | opened => exact represents_empty
  | apply _ performed ih =>
    obtain ⟨_, isApplied, same⟩ := bind_eq_ok.mp performed
    cases same
    exact ih.applyWithUndo isApplied
  | applyWithUndo _ performed ih => exact ih.applyWithUndo performed
  | undo _ once performed ih => exact ih.undo once performed
  | ageToCold _ ih => exact ih.ageToCold _ _
  | retierByHeightBatch _ performed ih => exact retierByHeightBatch_represents ih performed
  | @replaceAll store => exact represents_replaceAll store.toTiers ..
  | assumeSnapshotEntries _ performed _ => exact assumeSnapshotEntries_represents performed
  | @applyValidatedChanges _ _ _ _ _ performed ih =>
    obtain ⟨_, onMap, holds⟩ := (applyValidatedChanges_lockstep ih _ _).of_ok performed
    obtain ⟨-, rfl⟩ := (applyValidatedWalk_eq_ok (pairwise_sortedKeys _) (keySorted_sortedEntries _)
      le_rfl).mp onMap
    exact holds

/-- No outpoint is in both tiers, and reads return the logical coin whatever its tier. -/
theorem tiers_partition_logical_map {store : RedbUtxoStore} {coins : CoinTable}
    (reached : store.Reached digest coins) : (∀ key, store.hot.lookup key = none ∨ store.cold.lookup key = none) ∧
    (∀ key, store.get key = coins.lookup key) ∧
    (∀ available keys, store.getMany available keys = keys.map fun key => (key, coins.lookup key)) ∧
    (∀ now hotWindowSecs key, (store.ageToCold now hotWindowSecs).1.get key = store.get key) ∧
    ∀ tipHeight hotWindowBlocks scanLimit result,
      store.retierByHeightBatch tipHeight hotWindowBlocks scanLimit = .ok result →
      ∀ key, result.1.get key = store.get key := by
  have represents := reached.represents
  refine ⟨represents.apart, represents.shows, fun available keys => ?_, fun now hotWindowSecs key => ?_,
    fun tipHeight hotWindowBlocks scanLimit result performed key => ?_⟩
  · simp [store.getMany_eq, getManySerial, represents.shows]
  · rw [(represents.ageToCold now hotWindowSecs).shows, represents.shows]
  · rw [(RedbUtxoStore.retierByHeightBatch_represents represents performed).shows, represents.shows]

def touchedKey (number : Nat) : OutPointKey := ⟨⟨number⟩, 0⟩

def touchedCoin (lastTouched height : Nat) : Utxo := ⟨42, height, false, lastTouched, 0, [0x51]⟩

def touchedCoins : List CoinEntry :=
  [(touchedKey 1, touchedCoin 10 5), (touchedKey 2, touchedCoin 100 90)]

def agedTiers : Tiers :=
  ⟨ofList [(touchedKey 2, touchedCoin 100 90)], ofList [(touchedKey 1, touchedCoin 10 5)]⟩

theorem aged_reached : RedbUtxoStore.Reached (fun _ => ()) ⟨agedTiers, none⟩
    (((∅ : CoinTable).eraseAll []).insertAll touchedCoins) := by
  have applied : Tiers.empty.apply [] touchedCoins = .ok ⟨ofList touchedCoins.reverse, ∅⟩ := rfl
  exact @RedbUtxoStore.Reached.ageToCold _ _ _ _ _ 100 60 (.apply .opened applied)

theorem tiers_partition_logical_map_aged : agedTiers.cold.lookup (touchedKey 1) ≠ none ∧
      agedTiers.getMany 4 [touchedKey 1, touchedKey 2, touchedKey 1] =
        [(touchedKey 1, some (touchedCoin 10 5)), (touchedKey 2, some (touchedCoin 100 90)),
          (touchedKey 1, some (touchedCoin 10 5))] :=
  ⟨Option.some_ne_none _, (tiers_partition_logical_map aged_reached).2.2.1 4 _⟩

end

/-- The merge walk accepts the sorted form of whatever the walk by key accepts, with the same map, and refuses
sorted lists that spend a missing coin or create over an unspent one. -/
theorem commit_paths_agree (tiers : Tiers) (apart : ∀ key, tiers.hot.lookup key = none ∨ tiers.cold.lookup key = none) :
    (∀ spent created applied undo, tiers.applyWithUndo spent created = .ok (applied, undo) →
      ∃ committed, tiers.applyValidatedChanges (sortedKeys spent.toFinset) (sortedEntries (ofList created)) =
          .ok committed ∧ (∀ key, committed.get key = applied.get key) ∧
        ∀ key, committed.hot.lookup key = none ∨ committed.cold.lookup key = none) ∧
    ∀ spent created, spent.Pairwise (· < ·) → KeySorted created →
      ((∃ key ∈ spent, tiers.get key = none) ∨ ∃ coin ∈ created, coin.1 ∉ spent ∧ tiers.get coin.1 ≠ none) →
      ∃ error, tiers.applyValidatedChanges spent created = .error error := by
  obtain ⟨coins, represents⟩ := exists_represented apart
  constructor
  · intro spent created applied undo applies
    obtain ⟨_, performed, shows, -⟩ := (applyWithUndo_lockstep represents spent created).of_ok applies
    obtain ⟨applicable, rfl⟩ := applyWithUndo_eq_ok.mp performed
    have accepted := applyValidatedChanges_eq_ok.mpr ⟨applicable.lists.applicable_iff.mp applicable,
      (Edit.lookup_applied coins spent applicable.created_nodup).trans (applicable.lists.applyAll_eq _)⟩
    have lockstep := applyValidatedChanges_lockstep represents (sortedKeys spent.toFinset)
      (sortedEntries (ofList created))
    cases outcome : tiers.applyValidatedChanges (sortedKeys spent.toFinset) (sortedEntries (ofList created)) with
    | error error => cases (lockstep.of_error outcome).symm.trans accepted
    | ok committed =>
      obtain ⟨_, walked, holds⟩ := lockstep.of_ok outcome
      cases accepted.symm.trans walked
      exact ⟨committed, rfl, fun key => (holds.shows key).trans (shows.shows key).symm, holds.apart⟩
  · intro spent created spentSorted createdSorted unfit
    cases outcome : tiers.applyValidatedChanges spent created with
    | error error => exact ⟨error, rfl⟩
    | ok _ =>
      obtain ⟨_, walked, -⟩ := (applyValidatedChanges_lockstep represents spent created).of_ok outcome
      obtain ⟨applicable, -⟩ := (applyValidatedWalk_eq_ok spentSorted createdSorted le_rfl).mp walked
      simp only [represents.shows] at unfit
      rcases unfit with ⟨key, isSpent, missing⟩ | ⟨coin, isCreated, unspent, present⟩
      · exact absurd missing (applicable.spent_present key isSpent)
      · exact absurd (applicable.created_fresh coin.1 (mem_map_of_mem isCreated) unspent) present

theorem commit_paths_agree_aged : ∃ committed,
    agedTiers.applyValidatedChanges (sortedKeys [touchedKey 2, touchedKey 1].toFinset)
      (sortedEntries (ofList [(touchedKey 1, touchedCoin 101 101)])) = .ok committed ∧
    committed.get (touchedKey 1) = some (touchedCoin 101 101) ∧ committed.get (touchedKey 2) = none := by
  have apart : ∀ key, agedTiers.hot.lookup key = none ∨ agedTiers.cold.lookup key = none := by
    intro key
    by_cases same : key = touchedKey 1
    · exact .inl (same ▸ rfl)
    · exact .inr (by simp [agedTiers, same])
  have applied : agedTiers.applyWithUndo [touchedKey 2, touchedKey 1] [(touchedKey 1, touchedCoin 101 101)] =
      .ok (⟨ofList [(touchedKey 1, touchedCoin 101 101)], ∅⟩,
        ⟨[(touchedKey 2, touchedCoin 100 90), (touchedKey 1, touchedCoin 10 5)], [touchedKey 1]⟩) := rfl
  obtain ⟨committed, commits, same, -⟩ := (commit_paths_agree agedTiers apart).1 _ _ _ _ applied
  exact ⟨committed, commits, same _, same _⟩

end Rbtc.Chainstate
