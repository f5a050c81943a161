import Rbtc.Foundation.Mutation
import Rbtc.Chainstate.Block

/-! What a prepared transaction has read and the mutation it stands for. A block prepares its
transactions in turn, each against the coins its predecessors leave. -/

namespace Rbtc.Bitcoin.Transaction

def spends (transaction : Transaction) : List OutPointKey :=
  if transaction.isCoinbase then [] else transaction.input.map TxIn.previousOutput

def outputValue (transaction : Transaction) : Nat := (transaction.output.map TxOut.value).sum

end Rbtc.Bitcoin.Transaction

namespace Rbtc.Chainstate

open Foundation Bitcoin Query List Mutation Transaction PreparedTransaction

theorem foldOutcome_addOutputValue {outputs : List TxOut} {sum result : Nat}
    (added : foldOutcome addOutputValue sum outputs = .ok result) : result = sum + (outputs.map TxOut.value).sum := by
  induction outputs generalizing sum with
  | nil =>
    simp only [foldOutcome_nil, Except.ok.injEq] at added
    simp [added]
  | cons _ _ ih =>
    simp only [foldOutcome_cons, addOutputValue, bind_eq_ok, require_eq_ok] at added
    obtain ⟨_, ⟨_, _, sums⟩, remaining⟩ := added
    rw [checkedAdd_eq_some] at sums
    rw [ih remaining, ← sums.2, map_cons, sum_cons, Nat.add_assoc]

theorem foldOutcome_checkInput {inputs : List TxIn} {seen final : Finset OutPointKey}
    (checked : foldOutcome checkInput seen inputs = .ok final) : (inputs.map TxIn.previousOutput).Nodup ∧
      ∀ key ∈ inputs.map TxIn.previousOutput, key ∉ seen := by
  induction inputs generalizing seen with
  | nil => exact ⟨nodup_nil, nofun⟩
  | cons _ _ ih =>
    simp only [foldOutcome_cons, checkInput, bind_eq_ok, ensure_eq_ok, pure_eq_ok] at checked
    obtain ⟨_, ⟨_, _, _, unseen, rfl⟩, remaining⟩ := checked
    obtain ⟨nodup, apart⟩ := ih remaining
    rw [map_cons, nodup_cons]
    refine ⟨⟨fun later => apart _ later (Finset.mem_insert_self _ _), nodup⟩, ?_⟩
    rw [forall_mem_cons]
    exact ⟨unseen, fun key later before => apart key later (Finset.mem_insert_of_mem before)⟩

section
variable {context : TransactionContext} {answer : CoinMap}
  {prepared : PreparedTransaction}

section
variable {transaction : Transaction} {resolved final : Resolved} {inputs : List TxIn}

theorem resolveInput_eq_ok {next : Resolved} {input : TxIn} {found : Option Utxo}
    (result : resolveInput context transaction resolved input found = .ok next) :
    ∃ utxo, found = some utxo ∧ next.spent = resolved.spent ++ [input.previousOutput] ∧
      next.prevouts = resolved.prevouts ++ [utxo] ∧
      next.inputValue = resolved.inputValue + utxo.valueSats ∧ next.inputValue ≤ maxMoneySats := by
  simp only [resolveInput, bind_eq_ok, require_eq_ok] at result
  obtain ⟨utxo, isFound, _, _, _, _, locked⟩ := result
  -- The sequence lock is checked or not; either way the same sum follows.
  have summed : ∃ inputValue, checkedAdd 64 resolved.inputValue utxo.valueSats = some inputValue ∧
      inputValue ≤ maxMoneySats ∧ next = ⟨resolved.spent ++ [input.previousOutput],
        resolved.prevouts ++ [utxo], inputValue⟩ := by
    split at locked
    · simp only [bind_eq_ok, require_eq_ok, ensure_eq_ok, pure_eq_ok] at locked
      obtain ⟨_, _, inputValue, sums, _, bounded, rfl⟩ := locked
      exact ⟨inputValue, sums, bounded, rfl⟩
    · simp only [bind_eq_ok, require_eq_ok, ensure_eq_ok, pure_eq_ok] at locked
      obtain ⟨inputValue, sums, _, bounded, rfl⟩ := locked
      exact ⟨inputValue, sums, bounded, rfl⟩
  obtain ⟨_, sums, bounded, rfl⟩ := summed
  exact ⟨utxo, isFound, rfl, rfl, (checkedAdd_eq_some.mp sums).2.symm, bounded⟩

theorem evaluate_resolveInputs (bounded : resolved.inputValue ≤ maxMoneySats)
    (result : evaluate answer (resolveInputs context transaction resolved inputs) = .ok final) :
    ∃ coins : List Utxo, coins.map some = (inputs.map TxIn.previousOutput).map answer ∧
      final.spent = resolved.spent ++ inputs.map TxIn.previousOutput ∧ final.prevouts = resolved.prevouts ++ coins ∧
      final.inputValue = resolved.inputValue + (coins.map Utxo.valueSats).sum ∧ final.inputValue ≤ maxMoneySats := by
  induction inputs generalizing resolved with
  | nil =>
    simp only [resolveInputs, evaluate_pure, Except.ok.injEq] at result
    subst result
    exact ⟨[], by simp [bounded]⟩
  | cons _ _ ih =>
    simp only [resolveInputs, evaluate_bind, evaluate_read, ok_bind, bind_eq_ok] at result
    obtain ⟨_, resolves, remaining⟩ := result
    obtain ⟨utxo, found, spent, prevouts, inputValue, nextBounded⟩ := resolveInput_eq_ok resolves
    obtain ⟨coins, read, spent', prevouts', inputValue', final⟩ := ih nextBounded remaining
    refine ⟨utxo :: coins, ?_, ?_, ?_, ?_, final⟩
    · rw [map_cons, read, map_cons, map_cons, found]
    · rw [spent', spent, append_assoc, map_cons, singleton_append]
    · rw [prevouts', prevouts, append_assoc, singleton_append]
    · rw [inputValue', inputValue, map_cons, sum_cons, Nat.add_assoc]

theorem asked_resolveInputs (result : evaluate answer (resolveInputs context transaction resolved inputs) = .ok final) :
    ∀ key ∈ inputs.map TxIn.previousOutput,
      key ∈ (resolveInputs context transaction resolved inputs).run.asked answer := by
  induction inputs generalizing resolved with
  | nil => exact nofun
  | cons _ _ ih =>
    simp only [resolveInputs, evaluate_bind, evaluate_read, evaluate_lift, ok_bind, bind_eq_ok] at result
    obtain ⟨_, resolves, remaining⟩ := result
    intro key member
    rw [resolveInputs, asked_bind_of_ok (evaluate_read answer _),
      asked_bind_of_ok ((evaluate_lift answer _).trans resolves), mem_append]
    cases mem_cons.mp member with
    | inl same => exact .inl (same ▸ mem_cons_self)
    | inr later => exact .inr (mem_append_right _ (ih remaining key later))

end

/-- What a successful preparation establishes about a transaction and the coins that answered it. -/
structure Prepares (context : TransactionContext) (transaction : Transaction) (txid : Txid)
    (answer : CoinMap) (prepared : PreparedTransaction) : Prop where
  spent : prepared.spent = transaction.spends
  spent_nodup : prepared.spent.Nodup
  read : prepared.prevouts.map some = prepared.spent.map answer
  created : prepared.created = createdOutputs transaction txid context.height context.now
    context.creationMtp transaction.isCoinbase
  inputValue : prepared.validated.inputValueSats = (prepared.prevouts.map Utxo.valueSats).sum
  outputValue : prepared.validated.outputValueSats = transaction.outputValue
  inputValue_le : prepared.validated.inputValueSats ≤ maxMoneySats
  outputValue_le : prepared.validated.outputValueSats ≤ maxMoneySats
  covered : transaction.isCoinbase = false → prepared.validated.outputValueSats ≤ prepared.validated.inputValueSats
  has_inputs : transaction.isCoinbase = false → transaction.input ≠ []

section
variable {crate : ChainCrate} {transaction : Transaction} {txid : Txid} {verifyScripts : Bool}

theorem checkOutputs_eq_ok {outputValue : Nat} (result : checkOutputs context transaction = .ok outputValue) :
    outputValue = transaction.outputValue ∧ outputValue ≤ maxMoneySats := by
  simp only [checkOutputs, bind_eq_ok, ensure_eq_ok, pure_eq_ok] at result
  obtain ⟨_, _, _, _, _, sums, _, bounded, _, _, rfl⟩ := result
  rw [foldOutcome_addOutputValue sums, Nat.zero_add] at *
  exact ⟨rfl, bounded⟩

variable (result : evaluate answer (prepareTransactionWithContext crate context transaction (some txid) verifyScripts) =
    .ok prepared)
include result

theorem prepares_of_ok : Prepares context transaction txid answer prepared := by
  simp only [prepareTransactionWithContext, evaluate_bind, bind_eq_ok] at result
  obtain ⟨outputValue, checked, result⟩ := result
  obtain ⟨isSum, outputBounded⟩ := checkOutputs_eq_ok checked
  by_cases coinbase : transaction.isCoinbase = true
  · rw [if_pos coinbase] at result
    simp only [evaluate_lift, prepareCoinbase, bind_eq_ok, pure_eq_ok] at result
    obtain ⟨_, _, rfl⟩ := result
    constructor <;> simp [spends, coinbase, isSum.symm, outputBounded]
  rw [if_neg coinbase] at result
  simp only [evaluate_bind, evaluate_lift, bind_eq_ok, ensure_eq_ok] at result
  obtain ⟨_, hasInputs, _, unique, resolved, resolves, _, covered, verified⟩ := result
  obtain ⟨_, read, spent, prevouts, inputValue, inputBounded⟩ := evaluate_resolveInputs (Nat.zero_le _) resolves
  have isPrepared : prepared.spent = resolved.spent ∧ prepared.prevouts = resolved.prevouts ∧
      prepared.created = createdOutputs transaction txid context.height context.now context.creationMtp false ∧
      prepared.validated.inputValueSats = resolved.inputValue ∧ prepared.validated.outputValueSats = outputValue := by
    cases verifyScripts with
    | true =>
      simp only [if_true, evaluate_bind, bind_eq_ok, evaluate_pure, Except.ok.injEq] at verified
      obtain ⟨_, _, rfl⟩ := verified
      exact ⟨rfl, rfl, rfl, rfl, rfl⟩
    | false =>
      simp only [Bool.false_eq_true, if_false, evaluate_pure, Except.ok.injEq] at verified
      subst verified
      exact ⟨rfl, rfl, rfl, rfl, rfl⟩
  obtain ⟨isSpent, isPrevouts, isCreated, isInput, isOutput⟩ := isPrepared
  rw [nil_append] at spent prevouts
  rw [Nat.zero_add] at inputValue
  have spends : transaction.spends = transaction.input.map TxIn.previousOutput := if_neg coinbase
  constructor
  · rw [isSpent, spent, spends]
  · rw [isSpent, spent]
    exact (foldOutcome_checkInput unique).1
  · rw [isSpent, isPrevouts, spent, prevouts, read]
  · rw [isCreated, Bool.eq_false_of_not_eq_true coinbase]
  · rw [isInput, isPrevouts, prevouts, inputValue]
  · rw [isOutput, isSum]
  · exact isInput ▸ inputBounded
  · exact isOutput ▸ outputBounded
  · intro _
    rw [isInput, isOutput]
    exact covered
  · exact fun _ => hasInputs

theorem asked_prepare :
    ∀ key ∈ prepared.spent, key ∈ (prepareTransactionWithContext crate context transaction (some txid)
      verifyScripts).run.asked answer := by
  have spent := (prepares_of_ok result).spent
  simp only [prepareTransactionWithContext, evaluate_bind, evaluate_lift, bind_eq_ok] at result
  obtain ⟨_, checked, result⟩ := result
  by_cases coinbase : transaction.isCoinbase = true
  · simp [spent, spends, coinbase]
  rw [if_neg coinbase] at result
  simp only [evaluate_bind, evaluate_lift, bind_eq_ok] at result
  obtain ⟨_, hasInputs, _, unique, _, resolves, _⟩ := result
  intro key member
  rw [spent, spends, if_neg coinbase] at member
  rw [prepareTransactionWithContext, asked_bind_of_ok ((evaluate_lift answer _).trans checked), if_neg coinbase,
    asked_bind_of_ok ((evaluate_lift answer _).trans hasInputs),
    asked_bind_of_ok ((evaluate_lift answer _).trans unique), asked_bind_of_ok resolves]
  simp only [mem_append]
  exact .inr (.inr (.inr (.inl (asked_resolveInputs resolves key member))))

end

section
variable (transaction : Transaction) (txid : Txid) (height now creationMtp : Nat) (isCoinbase : Bool)

theorem map_fst_createdOutputs : (createdOutputs transaction txid height now creationMtp isCoinbase).map Prod.fst =
      (transaction.output.zipIdx.filter fun entry => !isUnspendable entry.1.scriptPubkey).map
        fun entry => ⟨txid, entry.2⟩ := by
  rw [createdOutputs, map_map]
  rfl

theorem nodup_createdOutputs :
    ((createdOutputs transaction txid height now creationMtp isCoinbase).map Prod.fst).Nodup := by
  rw [map_fst_createdOutputs]
  have indices : (transaction.output.zipIdx.map Prod.snd).Nodup := by
    rw [zipIdx_map_snd]
    exact nodup_range'
  have kept : ((transaction.output.zipIdx.filter fun entry =>
      !isUnspendable entry.1.scriptPubkey).map Prod.snd).Nodup :=
    indices.sublist (filter_sublist.map _)
  rw [show (fun entry => (⟨txid, entry.2⟩ : OutPointKey)) =
    (fun vout => ⟨txid, vout⟩) ∘ Prod.snd from rfl, ← map_map]
  exact kept.map fun left right same => (OutPointKey.mk.inj same).2

end

def coinValue (_ : OutPointKey) (coin : Utxo) : Nat := coin.valueSats

theorem carried_createdOutputs_le (transaction : Transaction) (txid : Txid)
    (height now creationMtp : Nat) (isCoinbase : Bool) : carried coinValue
        (createdOutputs transaction txid height now creationMtp isCoinbase) ≤ transaction.outputValue := by
  have kept : List.Sublist ((transaction.output.zipIdx.filter fun entry =>
      !isUnspendable entry.1.scriptPubkey).map fun entry => entry.1.value)
      (transaction.output.zipIdx.map fun entry => entry.1.value) := filter_sublist.map _
  have all : (transaction.output.zipIdx.map fun entry => entry.1.value) = transaction.output.map TxOut.value := by
    rw [show (fun entry => entry.1.value) = TxOut.value ∘ Prod.fst from rfl,
      ← map_map, zipIdx_map_fst]
  rw [carried, createdOutputs, map_map, outputValue, ← all]
  exact kept.sum_le_sum fun _ _ => Nat.zero_le _

namespace PreparedTransaction

def mutation (prepared : PreparedTransaction) : Mutation OutPointKey Utxo :=
  ⟨prepared.spent.zip prepared.prevouts, prepared.created⟩

end PreparedTransaction

namespace Prepares

variable {transaction : Transaction} {txid : Txid}

section
variable (prepares : Prepares context transaction txid answer prepared)
include prepares

theorem length_eq : prepared.prevouts.length = prepared.spent.length := by
  have lengths := congrArg length prepares.read
  rwa [length_map, length_map] at lengths

theorem spentKeys : prepared.mutation.spentKeys = prepared.spent :=
  map_fst_zip prepares.length_eq.ge

theorem spent_present : ∀ entry ∈ prepared.mutation.spent, answer entry.1 = some entry.2 := by
  intro entry member
  obtain ⟨index, inside, isEntry⟩ := mem_iff_getElem.mp member
  have shorter : index < prepared.spent.length ∧ index < prepared.prevouts.length := by
    have bound : index < (prepared.spent.zip prepared.prevouts).length := inside
    rw [length_zip] at bound
    omega
  have read := congrArg (fun list => list[index]?) prepares.read
  simp only [getElem?_map, getElem?_eq_getElem shorter.1,
    getElem?_eq_getElem shorter.2, Option.map_some, Option.some.injEq] at read
  have split : entry = (prepared.spent[index], prepared.prevouts[index]) := by
    rw [← isEntry]
    exact getElem_zip
  rw [split]
  exact read.symm

theorem created_nodup : prepared.mutation.createdKeys.Nodup := by
  rw [mutation, prepares.created]
  exact nodup_createdOutputs ..

theorem carried_spent : carried coinValue prepared.mutation.spent = prepared.validated.inputValueSats := by
  rw [prepares.inputValue]
  have values : (prepared.spent.zip prepared.prevouts).map Prod.snd = prepared.prevouts :=
    map_snd_zip prepares.length_eq.le
  rw [← congrArg (map Utxo.valueSats) values, map_map]
  rfl

theorem carried_created_le : carried coinValue prepared.mutation.created ≤ prepared.validated.outputValueSats := by
  rw [prepares.outputValue, mutation, prepares.created]
  exact carried_createdOutputs_le ..

end

theorem valid {base coins : CoinTable} {hides : Finset OutPointKey}
    (prepares : Prepares context transaction txid coins.lookup prepared)
    (fresh : ∀ key ∈ prepared.mutation.createdKeys, key ∉ prepared.spent → key ∉ hides → coins.lookup key = none)
    (created : ∀ key ∈ hides, key ∈ prepared.mutation.createdKeys ∧ key ∉ prepared.spent)
    (present : ∀ key ∈ hides, coins.lookup key = base.lookup key ∧ base.lookup key ≠ none) :
    prepared.mutation.Valid base hides coins := by
  rw [← prepares.spentKeys] at fresh created
  constructor
  · rw [prepares.spentKeys]
    exact prepares.spent_nodup
  · exact prepares.spent_present
  · exact prepares.created_nodup
  · exact fresh
  · exact created
  · exact present

end Prepares

end

structure Preparing where
  transactions : List PreparedTransaction
  scriptChecks : List DeferredScriptCheck
  totals : Totals
  delta : CoinTable

def recordPrepared (context : BlockContext) (index : Nat) (transaction : Transaction)
    (prepared : PreparedTransaction) (preparing : Preparing) : Outcome BlockError Preparing := do
  let totals ← chargeTransaction preparing.totals index prepared.validated.inputValueSats
    prepared.validated.outputValueSats prepared.validated.sigopCost
  return { transactions := preparing.transactions ++ [prepared]
           scriptChecks := scriptChecksWith preparing.scriptChecks index transaction prepared.prevouts
             context.scriptFlags
           totals
           delta := prepared.mutation.apply preparing.delta }

variable (crate : ChainCrate) (context : BlockContext) (block : Block)

def prepareOn (coins : CoinMap) (transaction : Transaction) (txid : Txid) :
    Except ChainstateError PreparedTransaction :=
  Query.evaluate coins
    (prepareTransactionWithContext crate (context.transaction block) transaction (some txid) false)

inductive Executes : Nat → Preparing → List (Transaction × Txid) → List PreparedTransaction → Preparing → Prop where
  | nil {index preparing} : Executes index preparing [] [] preparing
  | cons {index preparing following final transaction txid rest first others}
      (prepared : prepareOn crate context block preparing.delta.lookup transaction txid = .ok first)
      (recorded : recordPrepared context index transaction first preparing = .ok following)
      (remaining : Executes (index + 1) following rest others final) :
      Executes index preparing ((transaction, txid) :: rest) (first :: others) final

variable {crate context block} {index inputValue outputValue sigopCost : Nat} {totals totals' : Totals}

theorem recordPrepared_eq_ok
    {transaction : Transaction} {prepared : PreparedTransaction} {preparing following : Preparing} :
    recordPrepared context index transaction prepared preparing = .ok following ↔
      ∃ totals, chargeTransaction preparing.totals index prepared.validated.inputValueSats
        prepared.validated.outputValueSats prepared.validated.sigopCost = .ok totals ∧
        following = ⟨preparing.transactions ++ [prepared],
          scriptChecksWith preparing.scriptChecks index transaction prepared.prevouts
            context.scriptFlags, totals, prepared.mutation.apply preparing.delta⟩ := by
  simp only [recordPrepared, bind_eq_ok, pure_eq_ok]
  exact exists_congr fun totals => and_congr Iff.rfl eq_comm

def PreparedTransaction.fee (prepared : PreparedTransaction) : Nat :=
  prepared.validated.inputValueSats - prepared.validated.outputValueSats

theorem chargeTransaction_coinbase
    (charged : chargeTransaction totals 0 inputValue outputValue sigopCost = .ok totals') :
    totals'.fees = totals.fees := by
  simp only [chargeTransaction, if_true, bind_eq_ok, pure_eq_ok] at charged
  obtain ⟨_, rfl, _, _, _, _, rfl⟩ := charged
  rfl

theorem chargeTransaction_other (later : index ≠ 0)
    (charged : chargeTransaction totals index inputValue outputValue sigopCost = .ok totals') :
    outputValue ≤ inputValue ∧ totals'.fees = totals.fees + (inputValue - outputValue) ∧
      totals'.fees ≤ maxMoneySats := by
  simp only [chargeTransaction, if_neg later, bind_eq_ok, ensure_eq_ok, require_eq_ok, pure_eq_ok] at charged
  obtain ⟨_, covered, _, sums, _, bounded, _, rfl, _, _, _, _, rfl⟩ := charged
  exact ⟨covered, (checkedAdd_eq_some.mp sums).2.symm, bounded⟩

variable {final : Preparing} {prepared : List PreparedTransaction}

namespace Executes

variable {preparing : Preparing} {transactions : List (Transaction × Txid)}
  (executes : Executes crate context block index preparing transactions prepared final)
include executes

theorem transactions_eq : final.transactions = preparing.transactions ++ prepared := by
  induction executes with
  | nil => rw [append_nil]
  | cons _ recorded _ ih =>
    obtain ⟨_, _, rfl⟩ := recordPrepared_eq_ok.mp recorded
    rw [ih, append_assoc, singleton_append]

theorem fees_eq (later : index ≠ 0) (bounded : preparing.totals.fees ≤ maxMoneySats) : (∀ transaction ∈ prepared,
        transaction.validated.outputValueSats ≤ transaction.validated.inputValueSats) ∧
      final.totals.fees = preparing.totals.fees + (prepared.map fee).sum ∧ final.totals.fees ≤ maxMoneySats := by
  induction executes with
  | nil => exact ⟨nofun, by simp, bounded⟩
  | cons _ recorded _ ih =>
    obtain ⟨_, charged, rfl⟩ := recordPrepared_eq_ok.mp recorded
    obtain ⟨covered, fees, nextBounded⟩ := chargeTransaction_other later charged
    obtain ⟨coveredRest, feesRest, finalBounded⟩ := ih (Nat.succ_ne_zero _) nextBounded
    refine ⟨forall_mem_cons.mpr ⟨covered, coveredRest⟩, ?_, finalBounded⟩
    rw [feesRest, fees, Nat.add_assoc]
    rfl

theorem prepares {first : PreparedTransaction} (member : first ∈ prepared) :
    ∃ entry ∈ transactions, ∃ answer : CoinMap,
      Prepares (context.transaction block) entry.1 entry.2 answer first := by
  induction executes with
  | nil => cases member
  | cons result _ _ ih =>
    cases mem_cons.mp member with
    | inl same => exact ⟨_, mem_cons_self, _, same ▸ prepares_of_ok result⟩
    | inr later =>
      obtain ⟨entry, isEntry, found⟩ := ih later
      exact ⟨entry, .tail _ isEntry, found⟩

theorem aligned : Forall₂ (fun entry first => ∃ answer : CoinMap,
      Prepares (context.transaction block) entry.1 entry.2 answer first) transactions prepared := by
  induction executes with
  | nil => exact .nil
  | cons result _ _ ih => exact .cons ⟨_, prepares_of_ok result⟩ ih

end Executes

/-- A block executed on a coin set: its rounds, and a coinbase that claims no more than subsidy and
fees. -/
structure BlockExecution (crate : ChainCrate) (context : BlockContext) (block : Block)
    (ids : List Txid) (coins : CoinTable) (prepared : List PreparedTransaction)
    (final : Preparing) : Prop where
  lengths : ids.length = block.txdata.length
  executes : Executes crate context block 0 ⟨[], [], ⟨0, 0⟩, coins⟩ (block.txdata.zip ids) prepared final
  claim : ∃ coinbase ∈ prepared.head?, checkCoinbaseClaim context.subsidySats final.totals.fees
    coinbase.validated.outputValueSats = .ok ()

namespace BlockExecution

variable {ids : List Txid} {coins : CoinTable}

variable (execution : BlockExecution crate context block ids coins prepared final)
include execution

theorem accounts : ∃ coinbase others, prepared = coinbase :: others ∧ (∀ transaction ∈ others,
        transaction.validated.outputValueSats ≤ transaction.validated.inputValueSats) ∧
      final.totals.fees = (others.map fee).sum ∧ context.subsidySats + (others.map fee).sum < 2 ^ 64 ∧
      coinbase.validated.outputValueSats ≤ context.subsidySats + (others.map fee).sum := by
  obtain ⟨_, isFirst, claimed⟩ := execution.claim
  have executes := execution.executes
  generalize block.txdata.zip ids = transactions at executes
  cases executes with
  | nil => cases isFirst
  | cons _ recorded remaining =>
    cases isFirst
    obtain ⟨totals, charged, rfl⟩ := recordPrepared_eq_ok.mp recorded
    have start : totals.fees = 0 := chargeTransaction_coinbase charged
    have startBounded : totals.fees ≤ maxMoneySats := start.trans_le (Nat.zero_le _)
    obtain ⟨covered, fees, _⟩ := remaining.fees_eq (Nat.succ_ne_zero 0) startBounded
    simp only [start, Nat.zero_add] at fees
    simp only [checkCoinbaseClaim, bind_eq_ok, require_eq_ok, ensure_eq_ok, checkedAdd_eq_some, fees] at claimed
    obtain ⟨_, ⟨fits, rfl⟩, claimed⟩ := claimed
    exact ⟨_, _, rfl, covered, fees, fits, claimed⟩

theorem created_le : (prepared.map fun transaction => carried coinValue transaction.mutation.created).sum ≤
      context.subsidySats + (prepared.map fun transaction => carried coinValue transaction.mutation.spent).sum := by
  obtain ⟨coinbase, others, rfl, covered, _, _, _⟩ := execution.accounts
  have carried : ∀ transaction ∈ coinbase :: others,
      carried coinValue transaction.mutation.spent = transaction.validated.inputValueSats ∧
      carried coinValue transaction.mutation.created ≤ transaction.validated.outputValueSats := by
    intro transaction member
    obtain ⟨_, _, _, prepares⟩ := execution.executes.prepares member
    exact ⟨prepares.carried_spent, prepares.carried_created_le⟩
  have balanced : (others.map fun transaction => Mutation.carried coinValue
        transaction.mutation.created + transaction.fee).sum ≤
      (others.map fun transaction => Mutation.carried coinValue transaction.mutation.spent).sum := by
    refine sum_le_sum fun transaction member => ?_
    obtain ⟨spent, _⟩ := carried transaction (.tail _ member)
    have coveredHere := covered transaction member
    rw [fee]
    omega
  rw [sum_map_add] at balanced
  have first := (carried coinbase mem_cons_self).2
  simp only [map_cons, sum_cons]
  omega

end BlockExecution

end Rbtc.Chainstate
