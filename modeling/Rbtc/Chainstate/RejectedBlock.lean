import Rbtc.Chainstate.CoreRules
import Rbtc.Chainstate.MerkleTree
import Rbtc.Chainstate.Tiers
import Rbtc.Chainstate.BlockProperties

/-! A block that is refused, for whatever reason, leaves the coin map as it was. -/

namespace Rbtc.Chainstate

open Foundation Bitcoin AppliedTransaction Table List Option

variable {τ : Type} {after : CoinMap} {applied : List AppliedTransaction}
  {state : τ}

section
variable (store : UtxoStore τ) (shows : τ → CoinMap → Prop)

/-- Undoing the record takes every state that shows the map `after` to one that shows `before`. -/
def UtxoStore.Reverts (before : CoinMap) (undo : UtxoUndo)
    (after : CoinMap) : Prop :=
  ∀ state, shows state after → ∃ restored, store.undo state undo = .ok restored ∧ shows restored before

/-- Reads answer from the map a state shows, and the record of a mutation reverts it. -/
structure UtxoStore.Contract : Prop where
  reads : ∀ coins, Query.Answers store.get (fun state => shows state coins) coins
  reverts : ∀ {state next : τ} {coins : CoinMap} {spent : List OutPointKey}
    {prevouts : List Utxo} {created : List CoinEntry} {undo : UtxoUndo}, shows state coins →
    store.applyWithUndoFreshOutputsFromPrevouts state spent prevouts created = .ok (undo, next) →
    ∃ applied, shows next applied ∧ store.Reverts shows coins undo applied

/-- Undoing the records last first takes every state that shows `after` to one that shows `before`. -/
def UtxoStore.RevertsAll (before : CoinMap) (undos : List UtxoUndo)
    (after : CoinMap) : Prop :=
  ∀ state, shows state after →
    ∃ restored, undoAll store undos.reverse state = (restored, .ok ()) ∧ shows restored before

variable {store shows} {before middle : CoinMap}

theorem UtxoStore.revertsAll_nil : store.RevertsAll shows before [] before :=
  fun state shown => ⟨state, rfl, shown⟩

theorem UtxoStore.RevertsAll.concat {undos : List UtxoUndo} {undo : UtxoUndo}
    (earlier : store.RevertsAll shows before undos middle) (last : store.Reverts shows middle undo after) :
    store.RevertsAll shows before (undos ++ [undo]) after := by
  intro state shown
  obtain ⟨undone, isUndone, shownMiddle⟩ := last state shown
  obtain ⟨restored, isRestored, shownBefore⟩ := earlier undone shownMiddle
  refine ⟨restored, ?_, shownBefore⟩
  simp only [reverse_append, reverse_singleton, singleton_append, undoAll, isUndone]
  exact isRestored

theorem rollback_eq (α : Type) (error : BlockError)
    (reverts : store.RevertsAll shows before (applied.map undo) after) (shown : shows state after) :
    ∃ restored, (rollback store applied state error : τ × Outcome BlockError α) = (restored, .error (.refused error)) ∧
      shows restored before := by
  obtain ⟨restored, isRestored, shownBefore⟩ := reverts state shown
  refine ⟨restored, ?_, shownBefore⟩
  rw [← map_reverse] at isRestored
  simp only [rollback, isRestored]

theorem rollback_settles {α : Type} {final : τ} {error : BlockError} {fault : Fault BlockError}
    (reverts : store.RevertsAll shows before (applied.map undo) after) (shown : shows state after)
    (rolls : (rollback store applied state error : τ × Outcome BlockError α) = (final, .error fault)) :
    (∃ error, fault = .refused error) ∧ shows final before := by
  obtain ⟨_, rolled, shownBefore⟩ := rollback_eq α error reverts shown
  cases rolls.symm.trans rolled
  exact ⟨⟨error, rfl⟩, shownBefore⟩

end

def redbUtxoStore (now hotWindowSecs : Nat) : UtxoStore Tiers where
  get tiers key := (tiers.get key, tiers)
  applyWithUndoFreshOutputsFromPrevouts tiers spent _ created := do
    let (applied, undo) ← tiers.applyWithUndo spent created
    return (undo, applied)
  undo tiers undo := tiers.undo undo now hotWindowSecs

def Tiers.Shows (tiers : Tiers) (coins : CoinMap) : Prop :=
  ∃ table : CoinTable, tiers.Represents table ∧ coins = table.lookup

section
variable {coins : CoinTable}

theorem Tiers.Represents.undo_succeeds {tiers : Tiers} (represents : tiers.Represents coins) (undo : UtxoUndo)
    (absent : ∀ entry ∈ undo.spent, entry.1 ∈ undo.created ∨ coins.lookup entry.1 = none) (now hotWindowSecs : Nat) :
    ∃ undone, tiers.undo undo now hotWindowSecs = .ok undone := by
  have checked : ∀ entries, (∀ entry ∈ entries, entry.1 ∈ undo.created ∨ coins.lookup entry.1 = none) →
      foldOutcome (fun _ => Tiers.checkRestored tiers undo.created) () entries = .ok () := by
    intro entries listed
    induction entries with
    | nil => rfl
    | cons _ _ ih =>
      obtain ⟨first, others⟩ := forall_mem_cons.mp listed
      rw [← represents.shows, Tiers.get_eq_none] at first
      rw [foldOutcome_cons, Tiers.checkRestored, ensure_of first]
      exact ih others
  simp only [Tiers.undo, checked undo.spent absent]
  exact ⟨_, rfl⟩

theorem redb_reverts {tiers next : Tiers} {shown : CoinMap} {spent : List OutPointKey}
    {created : List CoinEntry} {undo : UtxoUndo} (shows : tiers.Shows shown)
    (applies : tiers.applyWithUndo spent created = .ok (next, undo)) (now hotWindowSecs : Nat) :
    ∃ applied, next.Shows applied ∧ (redbUtxoStore now hotWindowSecs).Reverts Tiers.Shows shown undo applied := by
  obtain ⟨table, represents, rfl⟩ := shows
  obtain ⟨_, performed, holds, rfl⟩ := (Tiers.applyWithUndo_lockstep represents spent created).of_ok applies
  obtain ⟨applicable, rfl⟩ := applyWithUndo_eq_ok.mp performed
  refine ⟨_, ⟨_, holds, rfl⟩, ?_⟩
  rintro later ⟨table', represents', same⟩
  obtain rfl : (table.eraseAll spent).insertAll created = table' := Finmap.ext_lookup (congrFun same)
  have keys := map_fst_entriesAt applicable.spent_present
  obtain ⟨undone, undoes⟩ := represents'.undo_succeeds ⟨table.entriesAt spent, created.map Prod.fst⟩
    applicable.absent now hotWindowSecs
  refine ⟨undone, undoes, table, ?_, rfl⟩
  have restored := represents'.undo (keys.symm ▸ applicable.spent_nodup) undoes
  rwa [applicable.reverted_table] at restored

theorem redbUtxoStore_contract (now hotWindowSecs : Nat) : (redbUtxoStore now hotWindowSecs).Contract Tiers.Shows := by
  refine ⟨fun coins => ⟨?_, fun _ _ shown => shown⟩, ?_⟩
  · rintro tiers key ⟨_, represents, rfl⟩
    exact represents.shows key
  intro tiers next _ spent prevouts created undo shows applies
  simp only [redbUtxoStore, bind_eq_ok] at applies
  obtain ⟨⟨_, _⟩, applies, rfl, rfl⟩ := applies
  exact redb_reverts shows applies now hotWindowSecs

end

variable {crate : ChainCrate} {store : UtxoStore τ} {shows : τ → CoinMap → Prop}
  {coins : CoinMap} {next : τ} {block : Block} {index : Nat}
  {context : BlockContext} {applying : Applying} {transaction : Transaction} {txid : Txid}

theorem applyTransactionWithDeferredScripts_reverts (contract : store.Contract shows)
    {context : TransactionContext} (shown : shows state coins) :
    (∀ error, applyTransactionWithDeferredScripts crate store context transaction txid state =
      (next, .error error) → shows next coins) ∧
    ∀ applied prevouts, applyTransactionWithDeferredScripts crate store context transaction txid state =
      (next, .ok (applied, prevouts)) → (∃ after, shows next after ∧ store.Reverts shows coins applied.undo after) ∧
        (transaction.isCoinbase = false → applied.outputValueSats ≤ applied.inputValueSats) := by
  obtain ⟨answered, kept⟩ := (contract.reads coins).runOn
    (prepareTransactionWithContext crate context transaction (some txid) false).run shown
  unfold applyTransactionWithDeferredScripts
  generalize Query.runOn store.get _ state = ran at answered kept ⊢
  obtain ⟨result, _⟩ := ran
  cases result with
  | error _ =>
    refine ⟨?_, nofun⟩
    rintro _ ⟨⟩
    exact kept
  | ok _ =>
    dsimp only
    split
    · refine ⟨?_, nofun⟩
      rintro _ ⟨⟩
      exact kept
    rename_i undo reached applies
    refine ⟨nofun, ?_⟩
    rintro _ _ ⟨⟩
    exact ⟨contract.reverts kept applies, (prepares_of_ok answered.symm).covered⟩

/-- Records that lead back to the coins of the start, a refusal with those coins, or a panic. -/
inductive Ends (store : UtxoStore τ) (shows : τ → CoinMap → Prop)
    (coins : CoinMap) (panics : Prop) : τ × Outcome BlockError Applying → Prop
  | applied {next : τ} {applying : Applying} {after : CoinMap} (shown : shows next after)
      (reverts : store.RevertsAll shows coins (applying.applied.map undo) after) :
      Ends store shows coins panics (next, .ok applying)
  | refused {next : τ} {error : BlockError} (shown : shows next coins) :
      Ends store shows coins panics (next, .error (.refused error))
  | panicked {next : τ} (cause : panics) : Ends store shows coins panics (next, .error .panicked)

variable {panics : Prop} {error : BlockError} {transactionIds : Option (List Txid)}
  {ids : List Txid}

theorem Ends.mono {panics' : Prop} {reached : τ × Outcome BlockError Applying} (weakens : panics → panics')
    (ends : Ends store shows coins panics reached) : Ends store shows coins panics' reached := by
  cases ends with
  | applied shown reverts => exact .applied shown reverts
  | refused shown => exact .refused shown
  | panicked cause => exact .panicked (weakens cause)

theorem ends_rollback (reverts : store.RevertsAll shows coins (applied.map undo) after)
    (shown : shows state after) : Ends store shows coins panics (rollback store applied state error) := by
  obtain ⟨_, rolled, shownCoins⟩ := rollback_eq Applying error reverts shown
  rw [rolled]
  exact .refused shownCoins

theorem chargeTransaction_safe {totals : Totals} {inputValue outputValue sigopCost : Nat}
    (covered : index = 0 ∨ outputValue ≤ inputValue) :
    Safe (chargeTransaction totals index inputValue outputValue sigopCost) := by
  unfold chargeTransaction
  split
  · exact Safe.bind (safe_pure _) fun _ _ => Safe.bind safe_require fun _ _ => Safe.bind safe_ensure fun _ _ =>
      safe_pure _
  rename_i later
  rw [ensure_of (covered.resolve_left later), ok_bind]
  exact Safe.bind safe_require fun _ _ => Safe.bind safe_ensure fun _ _ => Safe.bind (safe_pure _) fun _ _ =>
    Safe.bind safe_require fun _ _ => Safe.bind safe_ensure fun _ _ => safe_pure _

theorem applyRound_ends (contract : store.Contract shows) (shown : shows state after)
    (reverts : store.RevertsAll shows coins (applying.applied.map undo) after) :
    Ends store shows coins (index ≠ 0 ∧ transaction.isCoinbase = true)
      (applyRound crate store context block index transaction txid applying state) := by
  unfold applyRound
  split
  · next next error fails =>
    exact ends_rollback reverts ((applyTransactionWithDeferredScripts_reverts contract shown).1 _ fails)
  rename_i next appliedTransaction prevouts succeeds
  obtain ⟨⟨applied, shownApplied, last⟩, covered⟩ :=
    (applyTransactionWithDeferredScripts_reverts contract shown).2 _ _ succeeds
  have revertsNext : store.RevertsAll shows coins
      ((applying.applied ++ [appliedTransaction]).map undo) applied := by
    rw [map_append]
    exact reverts.concat last
  split
  · next panics =>
    refine .panicked ?_
    by_contra other
    refine chargeTransaction_safe ?_ panics
    rw [not_and_or, not_not, Bool.not_eq_true] at other
    exact other.imp_right covered
  · exact ends_rollback revertsNext shownApplied
  · exact .applied shownApplied revertsNext

theorem applyRounds_ends (contract : store.Contract shows) (transactions : List (Transaction × Txid))
    (shown : shows state after) (reverts : store.RevertsAll shows coins (applying.applied.map undo) after) :
    Ends store shows coins (∃ entry ∈ if index = 0 then transactions.tail else transactions, entry.1.isCoinbase = true)
      (applyRounds crate store context block index transactions applying state) := by
  induction transactions generalizing index applying state after with
  | nil => exact .applied shown reverts
  | cons entry _ ih =>
    have ends : Ends store shows coins (index ≠ 0 ∧ entry.1.isCoinbase = true)
        (applyRound crate store context block index entry.1 entry.2 applying state) :=
      applyRound_ends contract shown reverts
    rw [applyRounds]
    generalize applyRound crate store context block index entry.1 entry.2 applying state = reached at ends ⊢
    cases ends with
    | applied shown reverts =>
      refine (ih shown reverts).mono ?_
      rintro ⟨later, member, coinbase⟩
      refine ⟨later, ?_, coinbase⟩
      split
      · exact member
      · exact mem_cons_of_mem entry member
    | refused shown => exact .refused shown
    | panicked cause =>
      refine .panicked ⟨entry, ?_, cause.2⟩
      rw [if_neg cause.1]
      exact mem_cons_self

/-- A block with transactions, no second coinbase, and one id for each transaction if ids are given. -/
structure Prevalidated (block : Block) (transactionIds : Option (List Txid)) : Prop where
  nonempty : block.txdata ≠ []
  onlyCoinbase : ∀ transaction ∈ block.txdata.tail, transaction.isCoinbase = false
  ids : ∀ ids ∈ transactionIds, ids.length = block.txdata.length

theorem Prevalidated.length_ids (prevalidated : Prevalidated block transactionIds) :
    (transactionIds.getD (block.txdata.map crate.computeTxid)).length = block.txdata.length := by
  cases transactionIds with
  | none => exact length_map _
  | some ids => exact prevalidated.ids ids rfl

theorem rollback_ne_ok {α : Type} {value : α} : rollback store applied state error ≠ (next, .ok value) := by
  unfold rollback
  split <;> nofun

theorem applyRound_length {following : Applying}
    (succeeds : applyRound crate store context block index transaction txid applying state = (next, .ok following)) :
    following.applied.length = applying.applied.length + 1 := by
  unfold applyRound at succeeds
  split at succeeds
  · exact absurd succeeds rollback_ne_ok
  split at succeeds
  · nomatch succeeds
  · exact absurd succeeds rollback_ne_ok
  · cases succeeds
    exact length_append

theorem applyRounds_length {transactions : List (Transaction × Txid)} {final : Applying}
    (succeeds : applyRounds crate store context block index transactions applying state = (next, .ok final)) :
    final.applied.length = applying.applied.length + transactions.length := by
  induction transactions generalizing index applying state with
  | nil =>
    cases succeeds
    rfl
  | cons _ _ ih =>
    rw [applyRounds] at succeeds
    split at succeeds
    · nomatch succeeds
    · next reached following round =>
      rw [ih succeeds, applyRound_length round, length_cons]
      omega

theorem isCoinbase_of_zip {transactions : List Transaction}
    (found : ∃ entry ∈ (transactions.zip ids).tail, entry.1.isCoinbase = true) :
    ∃ transaction ∈ transactions.tail, transaction.isCoinbase = true := by
  obtain ⟨entry, member, coinbase⟩ := found
  rw [tail_zip] at member
  exact ⟨entry.1, (of_mem_zip member).1, coinbase⟩

theorem applyPrevalidated_restores (contract : store.Contract shows)
    {deferScripts : Bool} {final : τ} {fault : Fault BlockError} (shown : shows state coins)
    (rejects : applyPrevalidatedBlockWithDeploymentsInner crate store block transactionIds context deferScripts
      state = (final, .error fault)) : (∃ error, fault = .refused error) ∧ shows final coins ∨
      fault = .panicked ∧ ¬ Prevalidated block transactionIds := by
  have ends : Ends store shows coins _ (applyRounds crate store context block 0
      (block.txdata.zip (transactionIds.getD (block.txdata.map crate.computeTxid))) ⟨[], [], ⟨0, 0⟩⟩ state) :=
    applyRounds_ends contract _ shown UtxoStore.revertsAll_nil
  unfold applyPrevalidatedBlockWithDeploymentsInner at rejects
  dsimp only at rejects
  split at rejects
  · next next earlier looped =>
    cases rejects
    rw [looped] at ends
    cases ends with
    | refused shown => exact .inl ⟨⟨_, rfl⟩, shown⟩
    | panicked cause =>
      refine .inr ⟨rfl, fun prevalidated => ?_⟩
      obtain ⟨transaction, member, coinbase⟩ := isCoinbase_of_zip cause
      exact absurd ((prevalidated.onlyCoinbase transaction member).symm.trans coinbase) Bool.false_ne_true
  · next next applying looped =>
    rw [looped] at ends
    cases ends with
    | applied shown reverts =>
      split at rejects
      · exact .inl (rollback_settles reverts shown rejects)
      split at rejects
      · next none =>
        cases rejects
        refine .inr ⟨rfl, fun prevalidated => prevalidated.nonempty ?_⟩
        have counted := applyRounds_length looped
        rw [none, length_zip, prevalidated.length_ids] at counted
        exact length_eq_zero_iff.mp (by simpa using counted.symm)
      · split at rejects
        · exact .inl (rollback_settles reverts shown rejects)
        · nomatch rejects

/-- The store shows the coins as before the block, and a record kept from before still leads back. -/
structure UtxoStore.Restored (store : UtxoStore τ) (shows : τ → CoinMap → Prop)
    (coins : CoinMap) (final : τ) (fault : Fault BlockError) : Prop where
  refused : ∃ error, fault = .refused error
  shown : shows final coins
  leadsBack : ∀ before exception, store.Reverts shows before exception coins →
    ∃ restored, store.undo final exception = .ok restored ∧ shows restored before

/-- A refused block leaves the map of the store as it was, and application never panics on a block whose
structure was checked. -/
theorem rejected_block_keeps_map (contract : store.Contract shows) {state : τ} (shown : shows state coins)
    (block : Block) (context : BlockContext) : (∀ transactionIds deferScripts final fault,
      applyPrevalidatedBlockWithDeploymentsInner crate store block transactionIds context deferScripts state =
        (final, .error fault) →
      store.Restored shows coins final fault ∨ fault = .panicked ∧ ¬ Prevalidated block transactionIds) ∧
    ∀ bip34Active segwitActive signetChallenge final fault,
      applyBlockWithDeployments crate store block context bip34Active segwitActive signetChallenge state =
        (final, .error fault) → store.Restored shows coins final fault := by
  have inner : ∀ transactionIds deferScripts final fault,
      applyPrevalidatedBlockWithDeploymentsInner crate store block transactionIds context deferScripts state =
        (final, .error fault) →
      store.Restored shows coins final fault ∨ fault = .panicked ∧ ¬ Prevalidated block transactionIds := by
    intro transactionIds deferScripts final fault rejects
    refine (applyPrevalidated_restores contract shown rejects).imp_left fun restored => ?_
    exact ⟨restored.1, restored.2, fun before exception reverts => reverts final restored.2⟩
  refine ⟨inner, ?_⟩
  intro bip34Active segwitActive signetChallenge final fault rejects
  unfold applyBlockWithDeployments at rejects
  split at rejects
  · cases rejects
    exact ⟨⟨_, rfl⟩, shown, fun before exception reverts => reverts state shown⟩
  rename_i ids accepted
  have settled := inner none false
  generalize applyPrevalidatedBlockWithDeploymentsInner crate store block none context false state = reached
    at settled rejects
  obtain ⟨_, result⟩ := reached
  cases result with
  | ok _ => nomatch rejects
  | error _ =>
    cases rejects
    obtain ⟨nonempty, -, onlyCoinbase⟩ := structure_of_accepted accepted
    exact (settled _ _ rfl).resolve_right fun panics => panics.2 ⟨nonempty, onlyCoinbase, by simp⟩

def lonelyCoin : Utxo := ⟨10, 1, false, 0, 0, []⟩

def lonelyTiers : Tiers := ⟨(∅ : CoinTable).insert ⟨⟨1⟩, 0⟩ lonelyCoin, ∅⟩

/-- Spends the lonely coin and then the output made from it, under a coinbase that claims too much. -/
def greedyBlock : Block :=
  ⟨Headers.Fixture.header 0, [⟨1, 0, [⟨.null, [0, 0], 0, []⟩], [⟨100, []⟩]⟩, ⟨1, 0, [⟨⟨⟨1⟩, 0⟩, [], 0, []⟩], [⟨9, []⟩]⟩,
      ⟨1, 0, [⟨⟨⟨3⟩, 0⟩, [], 0, []⟩], [⟨8, []⟩]⟩]⟩

theorem lonelyTiers_shows : lonelyTiers.Shows ((∅ : CoinTable).insert ⟨⟨1⟩, 0⟩ lonelyCoin).lookup :=
  ⟨_, @Tiers.Represents.insertHot _ _ Tiers.represents_empty (⟨⟨1⟩, 0⟩, lonelyCoin) (lookup_empty _), rfl⟩

theorem rejected_block_keeps_lonely_coin :
    ∃ final, applyPrevalidatedBlockWithDeploymentsInner pairingCrate (redbUtxoStore 5 60) greedyBlock
        (some [⟨2⟩, ⟨3⟩, ⟨4⟩]) ⟨2, 5, 0, 0, false, 50⟩ false lonelyTiers =
          (final, .error (.refused (.excessCoinbase 100 52))) ∧ final.get ⟨⟨1⟩, 0⟩ = some lonelyCoin := by
  obtain ⟨final, rejects⟩ : ∃ final, applyPrevalidatedBlockWithDeploymentsInner pairingCrate (redbUtxoStore 5 60)
      greedyBlock (some [⟨2⟩, ⟨3⟩, ⟨4⟩]) ⟨2, 5, 0, 0, false, 50⟩ false lonelyTiers =
        (final, .error (.refused (.excessCoinbase 100 52))) := ⟨_, rfl⟩
  have settled := (rejected_block_keeps_map (redbUtxoStore_contract 5 60) lonelyTiers_shows greedyBlock _).1
    _ _ _ _ rejects
  obtain ⟨_, represents, same⟩ := (settled.resolve_right nofun).shown
  refine ⟨final, rejects, ?_⟩
  rw [represents.shows, ← same, lookup_insert, if_pos rfl]

end Rbtc.Chainstate
