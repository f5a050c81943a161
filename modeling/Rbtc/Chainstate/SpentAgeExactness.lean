import Rbtc.Chainstate.RedbChainStore

/-! The spent-age histogram counts exactly the coins spent by the connected blocks it covers. -/

namespace Rbtc.Chainstate

open Foundation Bitcoin Table List

/-- The histogram counts the ages of some connected blocks, oldest first, whose heights run without a
gap up to the tip. -/
structure SpentAges.Covers (ages : SpentAges) (blocks : List (Nat × List UtxoUndo)) (tipHeight : Nat) : Prop where
  rows : ages.rows.Tallies fun age => (spentAgesOf blocks).count age
  startHeight : ages.startHeight = blocks.head?.map Prod.fst
  endHeight : ages.endHeight = blocks.getLast?.map Prod.fst
  consecutive : blocks.IsChain fun below above => below.1 + 1 = above.1
  reaches : ∀ block ∈ blocks.getLast?, block.1 = tipHeight

def Countable (blocks : List (Nat × List UtxoUndo)) : Prop :=
  ∀ block ∈ blocks, ∃ counts, spentAgeCounts [block] = .ok counts

variable {blocks : List (Nat × List UtxoUndo)}

section
variable {ages ages' : SpentAges} {tipHeight : Nat}

theorem covers_nil (tipHeight : Nat) : SpentAges.Covers ⟨∅, none, none⟩ [] tipHeight where
  rows := tallies_empty
  startHeight := rfl
  endHeight := rfl
  consecutive := .nil
  reaches _ none := absurd none (Option.not_mem_none _)

variable {added : List (Nat × List UtxoUndo)}

theorem SpentAges.Covers.count {first last : Nat × List UtxoUndo}
    (covers : ages.Covers blocks tipHeight) (isFirst : added.head? = some first)
    (isLast : added.getLast? = some last) (consecutive : added.IsChain fun below above => below.1 + 1 = above.1)
    (next : tipHeight + 1 = first.1) (counted : countBlocks ages added first.1 last.1 = .ok ages') :
    ages'.Covers (blocks ++ added) last.1 := by
  obtain ⟨-, rfl⟩ := countBlocks_eq_ok.mp counted
  refine ⟨?_, ?_, ?_, ?_, ?_⟩
  · simp only [spentAgesOf_append, count_append]
    exact covers.rows.foldl_increment (spentAgesOf added)
  · rw [SpentAges.counted, covers.startHeight, head?_append]
    cases blocks.head? with
    | none => rw [isFirst]; rfl
    | some block => rfl
  · rw [getLast?_append, isLast]
    rfl
  · refine isChain_append.mpr ⟨covers.consecutive, consecutive, fun below isBelow above isAbove => ?_⟩
    rw [isFirst] at isAbove
    rw [covers.reaches below isBelow, next, Option.some.inj isAbove]
  · intro block isBlock
    rw [getLast?_append, isLast] at isBlock
    rw [← Option.some.inj isBlock]

theorem countable_of_countBlocks {firstHeight lastHeight : Nat}
    (counted : countBlocks ages added firstHeight lastHeight = .ok ages') : Countable added := by
  intro block member
  obtain ⟨_, all, -⟩ := bind_eq_ok.mp counted
  obtain ⟨⟨fit, bounded⟩, -⟩ := spentAgeCounts_eq_ok.mp all
  have fewer : ∀ age, (spentAgesOf [block]).count age ≤ (spentAgesOf added).count age := by
    intro age
    obtain ⟨_, _, rfl⟩ := append_of_mem member
    rw [append_cons, spentAgesOf_append, spentAgesOf_append, count_append, count_append]
    omega
  refine ⟨(spentAgesOf [block]).foldl increment ∅, spentAgeCounts_eq_ok.mpr ⟨⟨?_, fun age =>
    (fewer age).trans_lt (bounded age)⟩, ?_⟩⟩
  · exact fun other isOther => fit other (mem_singleton.mp isOther ▸ member)
  · simpa using tallies_empty.foldl_increment (spentAgesOf [block])

theorem subtract_tallied {rows counts : Table Nat Nat} {kept removed : List Nat}
    (tallied : rows.Tallies fun age => (kept ++ removed).count age)
    (counted : counts.Tallies fun age => removed.count age) :
    ∃ rows', foldOutcome (alterWith subtractSpentAge) rows (sortedEntries counts) = .ok rows' ∧
      rows'.Tallies fun age => kept.count age := by
  have left : (kept.foldl increment ∅).Tallies fun age => kept.count age := by
    simpa using tallies_empty.foldl_increment kept
  refine ⟨_, (foldOutcome_alterWith_counts counted).mpr fun age => ?_, left⟩
  rw [left age, tallied age]
  simp only [count_append]
  by_cases untouched : removed.count age = 0
  · simp [untouched]
  · rw [if_neg untouched, if_neg (by omega)]
    simp [subtractSpentAge, ensure]

theorem SpentAges.Covers.disconnect {block : Nat × List UtxoUndo} {counts : Table Nat Nat}
    (covers : ages.Covers (blocks ++ [block]) tipHeight) (parentHeight : Nat)
    (counted : spentAgeCounts [block] = .ok counts) :
    ∃ ages', disconnectSpentAges ages counts block.1 parentHeight = .ok ages' ∧
      (parentHeight + 1 = block.1 → ages'.Covers blocks parentHeight) := by
  have tallied := covers.rows
  rw [spentAgesOf_append] at tallied
  obtain ⟨rows, subtracted, left⟩ := subtract_tallied tallied (spentAgeCounts_eq_ok.mp counted).2
  have isEnd : ages.endHeight = some block.1 := by
    rw [covers.endHeight, getLast?_concat]
    rfl
  obtain ⟨consecutive, -, adjacent⟩ := isChain_append.mp covers.consecutive
  cases blocks with
  | nil =>
    have isStart : ages.startHeight = some block.1 := covers.startHeight
    refine ⟨⟨∅, none, none⟩, ?_, fun _ => covers_nil _⟩
    simp only [disconnectSpentAges, isStart, isEnd, require, ok_bind, subtracted]
    rfl
  | cons oldest others =>
    have isStart : ages.startHeight = some oldest.1 := covers.startHeight
    have ascending : (oldest :: others ++ [block]).Pairwise fun below above => below.1 < above.1 :=
      isChain_iff_pairwise.mp (covers.consecutive.imp fun _ _ next => by omega)
    have older : oldest.1 < block.1 :=
      (pairwise_cons.mp ascending).1 block (mem_append_right _ (mem_singleton_self _))
    refine ⟨{ ages with rows, endHeight := some parentHeight }, ?_, fun isParent => ?_⟩
    · simp only [disconnectSpentAges, isStart, isEnd, require, ok_bind, subtracted, if_neg older.ne']
      rfl
    have reached : ∀ below ∈ (oldest :: others).getLast?, below.1 = parentHeight := by
      intro below isBelow
      have next := adjacent below isBelow block rfl
      omega
    refine ⟨left, isStart, ?_, consecutive, reached⟩
    obtain ⟨newest, isNewest⟩ := Option.ne_none_iff_exists'.mp
      (mt getLast?_eq_none_iff.mp (cons_ne_nil oldest others))
    rw [isNewest, Option.map_some, reached newest isNewest]

end

theorem sum_tallied {counts : Table Nat Nat} {items : List Nat} (tallies : counts.Tallies fun age => items.count age) :
    ((sortedEntries counts).map Prod.snd).sum = items.length := by
  have listed : ∀ age, age ∈ sortedKeys counts.keys ↔ age ∈ items := fun age => by
    rw [mem_sortedKeys, Finmap.mem_keys, tallies.mem_iff, ← Nat.pos_iff_ne_zero, count_pos_iff]
  have rows : sortedEntries counts = (sortedKeys counts.keys).map fun age => (age, items.count age) := by
    rw [← filterMap_eq_map]
    refine filterMap_congr fun age member => ?_
    rw [tallies age, if_neg (count_pos_iff.mpr ((listed age).mp member)).ne']
    rfl
  have permuted : (sortedKeys counts.keys).Perm items.dedup :=
    (perm_ext_iff_of_nodup (nodup_sortedKeys _) (nodup_dedup _)).mpr fun age => by
      rw [listed age, mem_dedup]
  rw [rows, map_map]
  exact ((permuted.map _).sum_eq).trans (sum_map_count_dedup_eq_length items)

theorem foldOutcome_sumSpentAge {samples : Nat} {rows : List (Nat × Nat)}
    (populated : ∀ row ∈ rows, row.2 ≠ 0) (bounded : samples + (rows.map Prod.snd).sum < 2 ^ 64) :
    foldOutcome sumSpentAge samples rows = .ok (samples + (rows.map Prod.snd).sum) := by
  induction rows generalizing samples with
  | nil => rfl
  | cons row _ ih =>
    rw [map_cons, sum_cons, ← Nat.add_assoc] at bounded ⊢
    have fits : checkedAdd 64 samples row.2 = some (samples + row.2) := if_pos (by omega)
    rw [foldOutcome_cons, sumSpentAge, ensure_of (populated row mem_cons_self), fits]
    exact ih (fun later member => populated later (.tail _ member)) bounded

theorem SpentAges.Covers.read {ages : SpentAges} {blocks : List (Nat × List UtxoUndo)}
    {tipHeight : Nat} (covers : ages.Covers blocks tipHeight) (bounded : (spentAgesOf blocks).length < 2 ^ 64) :
    spentAgeHistogram ages = .ok ⟨blocks.head?.map Prod.fst, blocks.getLast?.map Prod.fst,
      (spentAgesOf blocks).length, sortedEntries ages.rows⟩ := by
  have populated : ∀ row ∈ sortedEntries ages.rows, row.2 ≠ 0 := by
    intro row member
    have found := mem_sortedEntries.mp member
    rw [covers.rows row.1] at found
    split at found
    · cases found
    · next positive => exact Option.some.inj found ▸ positive
  have total := sum_tallied covers.rows
  have samples : foldOutcome sumSpentAge 0 (sortedEntries ages.rows) = .ok (spentAgesOf blocks).length := by
    rw [foldOutcome_sumSpentAge populated (by omega), Nat.zero_add, total]
  have paired : ages.startHeight.isSome = ages.endHeight.isSome := by
    rw [covers.startHeight, covers.endHeight]
    cases blocks with
    | nil => rfl
    | cons _ _ => simp [getLast?_cons]
  have owned : ages.startHeight ≠ none ∨ sortedEntries ages.rows = [] := by
    rw [covers.startHeight]
    cases blocks with
    | nil =>
      refine .inr (eq_nil_iff_forall_not_mem.mpr fun row member => ?_)
      have found := mem_sortedEntries.mp member
      rw [covers.rows row.1] at found
      cases found
    | cons _ _ => exact .inl (Option.some_ne_none _)
  rw [← covers.startHeight, ← covers.endHeight]
  exact bind_eq_ok.mpr ⟨(), ensure_of paired, bind_eq_ok.mpr ⟨_, samples, bind_eq_ok.mpr ⟨(), ensure_of owned, rfl⟩⟩⟩

namespace RedbChainStore

section
variable {bloomHashes : OutPointKey → UInt64 × UInt64}

variable (bloomHashes) in
/-- A store reached from one without coverage, with the covered blocks still connected, oldest first. A
refused disconnect of a journaled store may leave its rows materialized. -/
inductive Connected : RedbChainStore → List (Nat × List UtxoUndo) → Prop where
  | uncovered {store} (noCoverage : store.ages = ⟨∅, none, none⟩) : Connected store []
  | connect {store final blocks expectedParent next spent created transactionUndos undo}
      (connected : Connected store blocks)
      (committed : store.commitConnect expectedParent next spent created transactionUndos = .ok (final, undo)) :
      Connected final (blocks ++ [(next.height, transactionUndos)])
  | batch {store final blocks transitions} (connected : Connected store blocks)
      (committed : store.commitConnectBatch bloomHashes transitions = .ok final) :
      Connected final (blocks ++ undoneHeights transitions)
  | materialize {store final blocks count} (connected : Connected store blocks)
      (materialized : store.materializeValidationDeltas = .ok (final, count)) : Connected final blocks
  | disconnect {store final blocks expectedCurrent parent spent created transactionUndos undo}
      (connected : Connected store blocks) (own : ∀ block ∈ blocks.getLast?, block.2 = transactionUndos)
      (committed : store.commitDisconnect expectedCurrent parent spent created transactionUndos = .ok (final, undo)) :
      Connected final blocks.dropLast

variable {store : RedbChainStore} {first : ConnectTransition} {rest : Transitions}

theorem commitConnectBatch_counts {final : RedbChainStore}
    (committed : store.commitConnectBatch bloomHashes (first :: rest) = .ok final) :
    advanceTips store.validationTarget store.tip (first :: rest) = .ok final.tip ∧
      countBlocks store.ages (undoneHeights (first :: rest)) first.next.height
        ((first :: rest).getLast?.getD first).next.height = .ok final.ages := by
  obtain ⟨_, _, _, _, _, -, -, -, advanced, counted, rfl⟩ := commitConnectBatch_eq_ok.mp committed
  exact ⟨advanced, counted⟩

theorem materializeValidationDeltas_frame {result : RedbChainStore × Nat}
    (materialized : store.materializeValidationDeltas = .ok result) :
    result.1.tip = store.tip ∧ result.1.ages = store.ages ∧ result.1.undos = store.undos := by
  unfold materializeValidationDeltas at materialized
  split at materialized
  · cases materialized
    exact ⟨rfl, rfl, rfl⟩
  split at materialized
  · cases materialized
    exact ⟨rfl, rfl, rfl⟩
  · simp only [bind_eq_ok, pure_eq_ok] at materialized
    obtain ⟨_, -, _, -, rfl⟩ := materialized
    exact ⟨rfl, rfl, rfl⟩

variable {target : Option ExecutionTip} {tip tip' : ExecutionTip}

theorem advanceTips_heights (advanced : advanceTips target tip (first :: rest) = .ok tip') :
    tip.height + 1 = first.next.height ∧ ((first :: rest).getLast?.getD first).next = tip' ∧
      (undoneHeights (first :: rest)).IsChain fun below above => below.1 + 1 = above.1 := by
  have isNext : ∀ {tip : ExecutionTip} {first rest}, advanceTips target tip (first :: rest) = .ok tip' →
      tip.height + 1 = first.next.height :=
    fun advanced => (checkedAdd_eq_some.mp (advanceTips_cons.mp advanced).1.height).2
  refine ⟨isNext advanced, ?_⟩
  induction rest generalizing first tip with
  | nil =>
    cases (advanceTips_cons.mp advanced).2
    exact ⟨rfl, .singleton _⟩
  | cons second _ ih =>
    obtain ⟨-, remaining⟩ := advanceTips_cons.mp advanced
    obtain ⟨reached, chained⟩ := ih remaining
    exact ⟨reached, .cons_cons (isNext remaining) chained⟩

theorem tracked_append {ages ages' : SpentAges} (tracked : ages.Covers blocks tip.height ∧ Countable blocks)
    (advanced : advanceTips target tip (first :: rest) = .ok tip')
    (counted : countBlocks ages (undoneHeights (first :: rest)) first.next.height
      ((first :: rest).getLast?.getD first).next.height = .ok ages') :
    ages'.Covers (blocks ++ undoneHeights (first :: rest)) tip'.height ∧
      Countable (blocks ++ undoneHeights (first :: rest)) := by
  obtain ⟨isNext, reached, chained⟩ := advanceTips_heights advanced
  have isLast : (undoneHeights (first :: rest)).getLast? = some (((first :: rest).getLast?.getD first).next.height,
        ((first :: rest).getLast?.getD first).transactionUndos) := by
    rw [undoneHeights, getLast?_map]
    rfl
  refine ⟨?_, forall_mem_append.mpr ⟨tracked.2, countable_of_countBlocks counted⟩⟩
  rw [← reached]
  exact tracked.1.count rfl isLast chained isNext counted

theorem Connected.tracked (connected : Connected bloomHashes store blocks) :
    store.ages.Covers blocks store.tip.height ∧ Countable blocks := by
  induction connected with
  | uncovered noCoverage =>
    rw [noCoverage]
    exact ⟨covers_nil _, nofun⟩
  | @connect store final _ expectedParent next spent created transactionUndos undo _ committed ih =>
    have one : store.connectOne ⟨expectedParent, next, spent, created, transactionUndos⟩ = .ok final :=
      bind_eq_ok.mpr ⟨_, committed, rfl⟩
    obtain ⟨-, _, _, _, _, -, -, advanced, counted, rfl⟩ := connectOne_eq_ok.mp one
    exact tracked_append ih advanced counted
  | @batch store final _ transitions _ committed ih =>
    cases transitions with
    | nil =>
      cases committed
      simpa [undoneHeights] using ih
    | cons _ _ =>
      obtain ⟨advanced, counted⟩ := commitConnectBatch_counts committed
      exact tracked_append ih advanced counted
  | materialize _ materialized ih =>
    obtain ⟨sameTip, sameAges, -⟩ := materializeValidationDeltas_frame materialized
    rw [sameTip, sameAges]
    exact ih
  | @disconnect store _ blocks expectedCurrent parent _ _ transactionUndos _ _ own committed ih =>
    obtain ⟨covers, countable⟩ := ih
    obtain ⟨_, materialized, remaining⟩ := bind_eq_ok.mp committed
    obtain ⟨sameTip, sameAges, -⟩ := materializeValidationDeltas_frame materialized
    obtain ⟨⟨-, isTip, parentHeight, -⟩, ages, subtracts, same⟩ := disconnectMaterialized_eq_ok.mp remaining
    obtain ⟨counts, counted, subtracted⟩ := bind_eq_ok.mp subtracts
    cases same
    rw [sameAges] at subtracted
    rcases eq_nil_or_concat' blocks with rfl | ⟨front, block, rfl⟩
    · simp only [disconnectSpentAges, show store.ages.startHeight = none from covers.startHeight,
        Except.ok.injEq] at subtracted
      subst subtracted
      obtain ⟨rows, start, last, chained, -⟩ := covers
      exact ⟨⟨rows, start, last, chained, nofun⟩, countable⟩
    have isHeight : block.1 = expectedCurrent.height := by
      rw [covers.reaches block (getLast?_concat ..), ← sameTip, isTip]
    have isBlock : (expectedCurrent.height, transactionUndos) = block :=
      Prod.ext isHeight.symm (own block (getLast?_concat ..)).symm
    rw [isBlock] at counted
    obtain ⟨_, subtracted', covered⟩ := covers.disconnect parent.height counted
    rw [isHeight, subtracted] at subtracted'
    cases subtracted'
    rw [dropLast_concat]
    refine ⟨covered ?_, (forall_mem_append.mp countable).1⟩
    rw [isHeight, ← isTip]
    exact (checkedAdd_eq_some.mp parentHeight).2

/-- The histogram never refuses to disconnect a covered block: the disconnect succeeds whenever the
rest of the store can make it. -/
theorem Connected.disconnects
    {block : Nat × List UtxoUndo} {expectedCurrent parent : ExecutionTip} {spent : List OutPointKey}
    {created : List CoinEntry} {materialized : RedbChainStore × Nat}
    {restored : ChainStore × UtxoUndo} (connected : Connected bloomHashes store (blocks ++ [block]))
    (isMaterialized : store.materializeValidationDeltas = .ok materialized)
    (restores : materialized.1.toChainStore.commitDisconnect expectedCurrent parent spent created block.2 =
      .ok restored) : ∃ final, store.commitDisconnect expectedCurrent parent spent created block.2 =
      .ok (final, restored.2) ∧ final.toChainStore = restored.1 := by
  obtain ⟨covers, countable⟩ := connected.tracked
  obtain ⟨sameTip, sameAges, -⟩ := materializeValidationDeltas_frame isMaterialized
  obtain ⟨⟨-, applicable, canRewind⟩, rfl⟩ := ChainStore.commitDisconnect_eq_ok.mp restores
  have isHeight : block.1 = expectedCurrent.height := by
    rw [covers.reaches block (getLast?_concat ..), ← sameTip, canRewind.current]
  obtain ⟨counts, counted⟩ := countable block (mem_append_right _ (mem_singleton_self _))
  obtain ⟨ages, subtracted, -⟩ := covers.disconnect parent.height counted
  rw [← sameAges] at subtracted
  have counted' : spentAgeCounts [(expectedCurrent.height, block.2)] = .ok counts := by
    rw [← counted, ← isHeight]
  rw [isHeight] at subtracted
  exact ⟨_, bind_eq_ok.mpr ⟨_, isMaterialized, disconnectMaterialized_eq_ok.mpr
    ⟨⟨applicable, canRewind⟩, ages, bind_eq_ok.mpr ⟨counts, counted', subtracted⟩, rfl⟩⟩, rfl⟩

/-- In every reached store the histogram counts the coins spent by the covered blocks that are connected. -/
theorem spent_age_histogram_exact {store : RedbChainStore} {blocks : List (Nat × List UtxoUndo)}
    (connected : Connected bloomHashes store blocks) : store.ages.Covers blocks store.tip.height ∧
      ((spentAgesOf blocks).length < 2 ^ 64 →
        spentAgeHistogram store.ages = .ok ⟨blocks.head?.map Prod.fst, blocks.getLast?.map Prod.fst,
          (spentAgesOf blocks).length, sortedEntries store.ages.rows⟩) ∧
      ∀ (front : List (Nat × List UtxoUndo)) (block : Nat × List UtxoUndo), blocks = front ++ [block] →
        ∀ (expectedCurrent parent : ExecutionTip) (spent : List OutPointKey)
          (created : List CoinEntry) (materialized : RedbChainStore × Nat)
          (restored : ChainStore × UtxoUndo), store.materializeValidationDeltas = .ok materialized →
        materialized.1.toChainStore.commitDisconnect expectedCurrent parent spent created block.2 =
          .ok restored → ∃ final, store.commitDisconnect expectedCurrent parent spent created block.2 =
          .ok (final, restored.2) ∧ final.toChainStore = restored.1 := by
  refine ⟨connected.tracked.1, connected.tracked.1.read, ?_⟩
  rintro front block rfl expectedCurrent parent spent created materialized restored isMaterialized restores
  exact connected.disconnects isMaterialized restores

end

def agedCoin : CoinEntry := (⟨⟨1⟩, 0⟩, ⟨50, 3, false, 0, 0, []⟩)

def agedStore : RedbChainStore where
  coins := ofList [agedCoin]
  tip := ⟨7, ⟨7⟩⟩
  undos := ∅
  retainBlockUndo := true
  validationTarget := none
  assumedSnapshotBase := none
  ages := ⟨∅, none, none⟩
  tables := .empty
  journal := none

def agedUndos : List UtxoUndo := [⟨[agedCoin], []⟩]

def agedFinal : RedbChainStore :=
  agedStore.withTables ∅ (ofList [(⟨8⟩, agedUndos)]) ⟨8, ⟨8⟩⟩ ⟨ofList [(5, 1)], some 8, some 8⟩

theorem agedStore_connects : agedStore.commitConnect ⟨7⟩ ⟨8, ⟨8⟩⟩ [agedCoin.1] [] agedUndos =
    .ok (agedFinal, ⟨[agedCoin], []⟩) := by
  rfl

theorem spent_age_histogram_exact_aged : agedFinal.ages.Covers [(8, agedUndos)] 8 ∧
      spentAgeHistogram agedFinal.ages = .ok ⟨some 8, some 8, 1, [(5, 1)]⟩ ∧
      ∃ final, agedFinal.commitDisconnect ⟨8, ⟨8⟩⟩ ⟨7, ⟨7⟩⟩ [] [agedCoin] agedUndos =
        .ok (final, ⟨[], [agedCoin.1]⟩) := by
  have connected : Connected (fun _ => (0, 0)) agedFinal ([] ++ [(8, agedUndos)]) :=
    .connect (.uncovered rfl) agedStore_connects
  obtain ⟨covers, reads, disconnects⟩ := spent_age_histogram_exact connected
  obtain ⟨final, disconnected, -⟩ := disconnects [] (8, agedUndos) rfl ⟨8, ⟨8⟩⟩ ⟨7, ⟨7⟩⟩ [] [agedCoin]
    (agedFinal, 0) ({ agedFinal.toChainStore with coins := agedStore.coins, tip := ⟨7, ⟨7⟩⟩, undos := ∅ },
      ⟨[], [agedCoin.1]⟩) rfl rfl
  exact ⟨covers, reads (by decide), final, disconnected⟩

end RedbChainStore

end Rbtc.Chainstate
