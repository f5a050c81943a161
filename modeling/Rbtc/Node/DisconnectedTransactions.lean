import Rbtc.Chainstate.MerkleTree
import Rbtc.Foundation.Windows

/-! Transactions of disconnected blocks: collected and written by the rewind loop, taken by the
transaction-pool store, then offered. -/

namespace Rbtc.Node

open Foundation Bitcoin Chainstate List Transaction

structure PoolLimits where
  maxTransactions : Nat
  maxBytes : Nat
  deriving DecidableEq, Repr

def maxAdmittedTransactionBytes : Nat := 4_000_000

def reconsidered (block : Block) : List Transaction :=
  (block.txdata.drop 1).filter fun transaction => !transaction.isCoinbase

def eligible (block : Block) : List Transaction :=
  (reconsidered block).filter fun transaction => transaction.totalSize ≤ maxAdmittedTransactionBytes

def PoolLimits.within (limits : PoolLimits) (transactions : List Transaction) : List Transaction :=
  fitting totalSize limits.maxTransactions limits.maxBytes transactions

section
variable (limits : PoolLimits)

def retainTransaction (pending : List Transaction × Nat) (transaction : Transaction) : List Transaction × Nat :=
  if maxAdmittedTransactionBytes < transaction.totalSize then pending
  else trimBack totalSize limits.maxTransactions limits.maxBytes (transaction :: pending.1)
    (pending.2 + transaction.totalSize)

def retainDisconnectedBlockTransactions (pending : List Transaction) (block : Block) : List Transaction :=
  ((reconsidered block).reverse.foldl (retainTransaction limits) (pending, totalSize totalSize pending)).1

end

theorem totalSize_le_weight (transaction : Transaction) : transaction.totalSize ≤ transaction.weight :=
  Nat.le_add_left _ _

theorem eligible_eq {block : Block} (light : block.weight ≤ maxBlockWeight) : eligible block = reconsidered block := by
  refine filter_eq_self.mpr fun transaction member => decide_eq_true ?_
  have inBlock : transaction ∈ block.txdata := mem_of_mem_drop (mem_of_mem_filter member)
  have counted : transaction.weight ≤ (block.txdata.map weight).sum :=
    single_le_sum (fun _ _ => Nat.zero_le _) _ (mem_map_of_mem inBlock)
  have size := totalSize_le_weight transaction
  simp only [Block.weight, maxBlockWeight, maxAdmittedTransactionBytes] at light ⊢
  omega

section
variable {limits : PoolLimits} {pending items : List Transaction}

theorem retainDisconnectedBlockTransactions_eq {block : Block} (isPending : pending = limits.within items) :
    retainDisconnectedBlockTransactions limits pending block = limits.within (eligible block ++ items) := by
  have loop : ∀ transactions : List Transaction, ∃ retained, retained = limits.within (transactions.filter
        (fun transaction => transaction.totalSize ≤ maxAdmittedTransactionBytes) ++ items) ∧
      transactions.foldr (fun transaction progress => retainTransaction limits progress transaction)
        (pending, totalSize totalSize pending) = (retained, totalSize totalSize retained) := by
    intro transactions
    induction transactions with
    | nil => exact ⟨pending, isPending, rfl⟩
    | cons transaction rest ih =>
      obtain ⟨retained, isRetained, folded⟩ := ih
      rw [foldr_cons, folded, retainTransaction]
      split
      · next large => exact ⟨retained, by rwa [filter_cons_of_neg (by simpa using large)], rfl⟩
      · next small =>
        refine ⟨_, ?_, trimBack_eq _ (by simp [Foundation.totalSize, Nat.add_comm])⟩
        rw [filter_cons_of_pos (by simpa using small), isRetained]
        exact fitting_append_fitting (Nat.le_refl _) (Nat.le_refl _) [transaction] _
  obtain ⟨_, isRetained, folded⟩ := loop (reconsidered block)
  rw [retainDisconnectedBlockTransactions, foldl_reverse, folded]
  exact isRetained

theorem foldl_retainDisconnected (isPending : pending = limits.within items) (run : List Block) :
    run.foldl (retainDisconnectedBlockTransactions limits) pending =
      limits.within (run.reverse.flatMap eligible ++ items) := by
  induction run generalizing pending items with
  | nil => exact isPending
  | cons block _ ih =>
    rw [foldl_cons, ih (retainDisconnectedBlockTransactions_eq isPending), reverse_cons, flatMap_append,
      flatMap_singleton, append_assoc]

end

inductive TransactionPoolStoreError where
  | malformed (message : String)
  deriving DecidableEq, Repr

section
variable (crate : ChainCrate) (limits : PoolLimits)

def validateTransaction (seen : Nat × List Txid) (transaction : Transaction) :
    Except TransactionPoolStoreError (Nat × List Txid) := do
  ensure (transaction.isCoinbase = false) (.malformed "persisted coinbase transaction")
  ensure (transaction.weight ≤ 400_000) (.malformed "persisted transaction exceeds standard weight")
  ensure (seen.1 + transaction.totalSize ≤ limits.maxBytes)
    (.malformed "persisted transactions exceed the byte limit")
  ensure (crate.computeTxid transaction ∉ seen.2) (.malformed "duplicate persisted transaction ID")
  return (seen.1 + transaction.totalSize, crate.computeTxid transaction :: seen.2)

/-- One input in the second loop: its parent comes earlier and no other input spends the same coin. -/
def validateSpend (ids : List Txid) (seen : List Txid) (spent : List OutPointKey) (input : TxIn) :
    Except TransactionPoolStoreError (List OutPointKey) := do
  ensure (input.previousOutput.txid ∈ ids → input.previousOutput.txid ∈ seen)
    (.malformed "persisted child precedes its parent")
  ensure (input.previousOutput ∉ spent) (.malformed "persisted transactions contain an input conflict")
  return input.previousOutput :: spent

def validateSpends (ids : List Txid) (progress : List Txid × List OutPointKey) (transaction : Transaction) :
    Except TransactionPoolStoreError (List Txid × List OutPointKey) := do
  let spent ← foldOutcome (validateSpend ids progress.1) progress.2 transaction.input
  return (crate.computeTxid transaction :: progress.1, spent)

def validateTransactions (transactions : List Transaction) : Except TransactionPoolStoreError Unit := do
  ensure (transactions.length ≤ limits.maxTransactions) (.malformed "too many persisted transactions")
  let (_, ids) ← foldOutcome (validateTransaction crate limits) (0, []) transactions
  let _ ← foldOutcome (validateSpends crate ids) ([], []) transactions
  return ()

end

/-- `pending` lives in the session, `persisted` in the store, `chain` holds the connected blocks,
newest first, `since` those disconnected since the last completed admission. -/
structure Rewinding where
  chain : List Block
  pending : List Transaction
  persisted : List Transaction
  since : List Block
  deriving DecidableEq

inductive RewindEvent where
  /-- A block is validated and connected. -/
  | connect (block : Block)
  /-- One round of the rewind loop, with the ledger's answer for the tip's height. -/
  | rewind (stored : Option Block)
  /-- A round that stops after the list was written and before the tip is disconnected. -/
  | interrupted (stored : Option Block)
  /-- The session ends anywhere else, and another one starts. -/
  | restart
  /-- An admission pass runs to its end; the session's list is cleared unless a later pass is deferred. -/
  | admission (finishes : Bool)

namespace Rewinding

variable (crate : ChainCrate) (limits : PoolLimits)

def initial : Rewinding := ⟨[], [], [], []⟩

variable (state : Rewinding)

/-- Retains and writes the transactions of the tip. A block that the ledger lost is passed over. -/
def retainTip (tip : Block) (stored : Option Block) :
    Except TransactionPoolStoreError Rewinding :=
  match stored with
  | none => .ok state
  | some block => do
      ensure (crate.blockHash block.header = crate.blockHash tip.header)
        (.malformed "retained stale block has another hash")
      let pending := retainDisconnectedBlockTransactions limits state.pending block
      validateTransactions crate limits pending
      return { state with pending, persisted := pending }

/-- An error ends the session, and with it the list in memory. -/
def step : RewindEvent → Rewinding
  | .connect block => if block.weight ≤ maxBlockWeight then { state with chain := block :: state.chain } else state
  | .rewind stored =>
    match state.chain with
    | [] => state
    | tip :: below =>
      match state.retainTip crate limits tip stored with
      | .ok retained => { retained with chain := below, since := tip :: state.since }
      | .error _ => { state with pending := [] }
  | .interrupted stored =>
    match state.chain with
    | [] => state
    | tip :: _ =>
      match state.retainTip crate limits tip stored with
      | .ok retained => { retained with pending := [] }
      | .error _ => { state with pending := [] }
  | .restart => { state with pending := [] }
  | .admission finishes =>
    { state with pending := if finishes then [] else state.pending, persisted := [], since := [] }

def run (events : List RewindEvent) : Rewinding := events.foldl (step crate limits) initial

def offered : List Transaction :=
  if state.pending.isEmpty then state.persisted else state.pending

def due : List Transaction := limits.within (state.since.flatMap reconsidered)

/-- The condition on a step: the ledger returns the block, and the session still has the list of what is due. -/
def Keeps : RewindEvent → Prop
  | .rewind stored => stored = state.chain.head? ∧ (state.pending = [] → state.due limits = [])
  | .interrupted _ => state.due limits = []
  | .connect _ | .restart | .admission _ => True

def KeepsAll : Rewinding → List RewindEvent → Prop
  | _, [] => True
  | state, event :: rest => state.Keeps limits event ∧ KeepsAll (state.step crate limits event) rest

/-- What is due is in the store, and in memory unless the session has no list. -/
structure Retained (state : Rewinding) : Prop where
  light : ∀ block ∈ state.chain, block.weight ≤ maxBlockWeight
  stored : ∀ transaction ∈ state.due limits, transaction ∈ state.persisted
  held : state.pending = [] ∨ ∃ older, state.pending = limits.within (state.since.flatMap reconsidered ++ older)

variable {crate limits} {state retained : Rewinding}

theorem retainTip_eq_ok {tip block : Block} (retains : state.retainTip crate limits tip (some block) = .ok retained) :
    retained = { state with
      pending := retainDisconnectedBlockTransactions limits state.pending block
      persisted := retainDisconnectedBlockTransactions limits state.pending block } := by
  simp only [retainTip, bind_eq_ok, pure_eq_ok] at retains
  obtain ⟨-, -, -, -, rfl⟩ := retains
  rfl

theorem retainTip_frame {tip : Block} {stored : Option Block}
    (retains : state.retainTip crate limits tip stored = .ok retained) :
    retained.chain = state.chain ∧ retained.since = state.since := by
  cases stored with
  | none =>
    cases retains
    exact ⟨rfl, rfl⟩
  | some _ =>
    rw [retainTip_eq_ok retains]
    exact ⟨rfl, rfl⟩

section
variable (kept : state.Retained limits)
include kept

theorem Retained.offers {transaction : Transaction}
    (isDue : transaction ∈ state.due limits) : transaction ∈ state.offered := by
  unfold offered
  split
  · exact kept.stored transaction isDue
  rename_i filled
  rcases kept.held with empty | ⟨older, isPending⟩
  · simp [empty] at filled
  · rw [isPending]
    exact (fitting_isInitial _ older).subset isDue

theorem Retained.forgets : { state with pending := [] }.Retained limits :=
  ⟨kept.light, kept.stored, .inl rfl⟩

theorem Retained.step {event : RewindEvent} (keeps : state.Keeps limits event) :
    (state.step crate limits event).Retained limits := by
  cases event with
  | connect _ =>
    simp only [Rewinding.step]
    split
    · next light => exact ⟨forall_mem_cons.mpr ⟨light, kept.light⟩, kept.stored, kept.held⟩
    · exact kept
  | rewind stored =>
    obtain ⟨isStored, inMemory⟩ := keeps
    simp only [Rewinding.step]
    cases isChain : state.chain with
    | nil => exact kept
    | cons tip _ =>
      have light := forall_mem_cons.mp (isChain ▸ kept.light)
      rw [isStored, isChain, head?_cons]
      cases retains : state.retainTip crate limits tip (some tip) with
      | error error =>
        simp only [retains]
        exact isChain ▸ kept.forgets
      | ok _ =>
        obtain ⟨older, isPending⟩ : ∃ older,
            state.pending = limits.within (state.since.flatMap reconsidered ++ older) := by
          rcases kept.held with empty | held
          · exact ⟨[], by rw [append_nil, empty]; exact (inMemory empty).symm⟩
          · exact held
        have isList := @retainDisconnectedBlockTransactions_eq _ _ _ tip isPending
        rw [eligible_eq light.1, ← append_assoc] at isList
        simp only [retains, retainTip_eq_ok retains, isList]
        exact ⟨light.2, fun transaction isDue => (fitting_isInitial _ older).subset isDue, .inr ⟨older, rfl⟩⟩
  | interrupted stored =>
    simp only [Rewinding.step]
    cases isChain : state.chain with
    | nil => exact kept
    | cons tip _ =>
      cases retains : state.retainTip crate limits tip stored with
      | error _ =>
        simp only [retains]
        exact isChain ▸ kept.forgets
      | ok _ =>
        obtain ⟨sameChain, sameSince⟩ := retainTip_frame retains
        simp only [retains]
        refine ⟨sameChain ▸ kept.light, fun transaction isDue => ?_, .inl rfl⟩
        have nothing : state.due limits = [] := keeps
        rw [due, sameSince] at isDue
        rw [due] at nothing
        rw [nothing] at isDue
        cases isDue
  | restart => exact kept.forgets
  | admission finishes =>
    refine ⟨kept.light, nofun, ?_⟩
    cases finishes with
    | true => exact .inl rfl
    | false =>
      refine kept.held.imp_right ?_
      rintro ⟨older, isPending⟩
      -- A list within the limits is its own longest part within them.
      refine ⟨state.pending, ?_⟩
      have same := @fitting_append_fitting _ totalSize _ _ _ _ (Nat.le_refl limits.maxTransactions)
        (Nat.le_refl limits.maxBytes) [] (state.since.flatMap reconsidered ++ older)
      exact (isPending.trans (same.symm.trans (by rw [isPending]; rfl)))

theorem Retained.run {events : List RewindEvent}
    (keeps : state.KeepsAll crate limits events) :
    (events.foldl (Rewinding.step crate limits) state).Retained limits := by
  induction events generalizing state with
  | nil => exact kept
  | cons _ _ ih => exact ih (kept.step keeps.1) keeps.2

end

/-- Under the condition on each step, an admission offers everything disconnected since the last
completed one. -/
theorem disconnected_transactions_are_offered (crate : ChainCrate) (limits : PoolLimits) (events : List RewindEvent)
    (keeps : initial.KeepsAll crate limits events) :
    ∀ transaction ∈ (run crate limits events).due limits, transaction ∈ (run crate limits events).offered := by
  intro transaction isDue
  have start : initial.Retained limits := ⟨nofun, nofun, .inl rfl⟩
  exact (start.run keeps).offers isDue

end Rewinding

def payment (index : Nat) : Transaction := ⟨2, 0, [⟨⟨⟨index⟩, 0⟩, [], 0, []⟩], [⟨5, []⟩]⟩

def coinbaseTransaction : Transaction := ⟨2, 0, [⟨.null, [], 0, []⟩], [⟨5, []⟩]⟩

def payingBlock (index : Nat) : Block := ⟨Headers.Fixture.header (2 * index), [coinbaseTransaction, payment index]⟩

def payingCrate : ChainCrate :=
  { pairingCrate with
    computeTxid := fun transaction => ⟨(transaction.input.map fun input => input.previousOutput.txid.value + 100).sum⟩ }

theorem disconnected_transactions_are_offered_twice : ∃ state,
    state = Rewinding.run payingCrate ⟨64, 4_000_000⟩ [.connect (payingBlock 1), .connect (payingBlock 2),
      .rewind (some (payingBlock 2)), .rewind (some (payingBlock 1)), .restart] ∧
    state.due ⟨64, 4_000_000⟩ = [payment 1, payment 2] ∧
    ∀ transaction ∈ [payment 1, payment 2], transaction ∈ state.offered := by
  have isDue : (Rewinding.run payingCrate ⟨64, 4_000_000⟩ [.connect (payingBlock 1), .connect (payingBlock 2),
      .rewind (some (payingBlock 2)), .rewind (some (payingBlock 1)), .restart]).due ⟨64, 4_000_000⟩ =
      [payment 1, payment 2] := by decide
  refine ⟨_, rfl, isDue, ?_⟩
  rw [← isDue]
  exact Rewinding.disconnected_transactions_are_offered payingCrate ⟨64, 4_000_000⟩ _
    ⟨trivial, trivial, ⟨rfl, fun _ => rfl⟩, ⟨by decide, by decide⟩, trivial, trivial⟩

/-- A restart between two disconnects: the list written for the second replaces the first one. -/
theorem restart_loses_disconnected_transaction : ∃ state,
    state = Rewinding.run payingCrate ⟨64, 4_000_000⟩ [.connect (payingBlock 1), .connect (payingBlock 2),
      .rewind (some (payingBlock 2)), .restart, .rewind (some (payingBlock 1))] ∧
    payment 2 ∈ state.due ⟨64, 4_000_000⟩ ∧ state.offered = [payment 1] := ⟨_, rfl, by decide, by decide⟩

def PoolLimits.Admits (limits : PoolLimits) (transactions : List Transaction) : Prop :=
  transactions.length ≤ limits.maxTransactions ∧ totalSize totalSize transactions ≤ limits.maxBytes

/-- No transaction spends an output of a later one. -/
abbrev ParentsFirst (crate : ChainCrate) (transactions : List Transaction) : Prop :=
  transactions.Pairwise fun earlier later =>
    ∀ input ∈ earlier.input, input.previousOutput.txid ≠ crate.computeTxid later

/-- What is left is the longest part that fits, oldest first, and a dependency is kept in order. -/
theorem retention_keeps_dependencies (crate : ChainCrate) (limits : PoolLimits) {existing : List Transaction}
    (fits : limits.Admits existing) (ordered : ParentsFirst crate existing) (run : List Block) :
    ∃ retained kept, run.foldl (retainDisconnectedBlockTransactions limits) existing = retained ++ kept ∧
      limits.Admits (retained ++ kept) ∧ (∀ longer, longer <+: run.reverse.flatMap eligible ++ existing →
        limits.Admits longer → longer <+: retained ++ kept) ∧
      retained <+: run.reverse.flatMap eligible ∧ kept <+: existing ∧
      (kept = [] ∨ retained = run.reverse.flatMap eligible) ∧ ParentsFirst crate kept ∧
      (ParentsFirst crate (run.reverse.flatMap Block.txdata) → ParentsFirst crate retained) := by
  have isLeft := foldl_retainDisconnected (fitting_of_fits fits.1 fits.2).symm run
  have chain : (run.reverse.flatMap eligible).Sublist (run.reverse.flatMap Block.txdata) :=
    List.Sublist.flatMap_right _ fun _ _ => filter_sublist.trans (filter_sublist.trans (drop_sublist ..))
  generalize run.reverse.flatMap eligible = older at isLeft chain ⊢
  have maximal : ∀ longer, longer <+: older ++ existing → limits.Admits longer →
      longer <+: limits.within (older ++ existing) := by
    rintro longer ⟨more, isWhole⟩ ⟨few, small⟩
    have initial := @fitting_isInitial _ totalSize limits.maxTransactions limits.maxBytes longer more
    rwa [fitting_of_fits few small, isWhole] at initial
  obtain ⟨initial, within⟩ := fitting_spec (older ++ existing)
  change limits.within (older ++ existing) <+: _ at initial
  change limits.Admits (limits.within (older ++ existing)) at within
  generalize limits.within (older ++ existing) = left at isLeft maximal initial within
  have parts : left = older.take left.length ++ existing.take (left.length - older.length) := by
    rw [← take_append]
    exact prefix_iff_eq_take.mp initial
  rw [parts] at isLeft maximal within
  refine ⟨_, _, isLeft, within, maximal, take_prefix .., take_prefix .., ?_, ordered.sublist (take_sublist ..),
    fun ordered => ordered.sublist ((take_sublist ..).trans chain)⟩
  rcases Nat.le_total left.length older.length with shorter | longer
  · exact .inl (by rw [Nat.sub_eq_zero_of_le shorter, take_zero])
  · exact .inr (take_of_length_le longer)

/-- A payment and one that spends it are retained before the older list, which loses its end to the limit. -/
def childBlock : Block := ⟨Headers.Fixture.header 2, [coinbaseTransaction, payment 1, payment 101]⟩

theorem retention_keeps_dependencies_of_child : ∃ retained kept,
    [childBlock].foldl (retainDisconnectedBlockTransactions ⟨3, 4_000_000⟩) [payment 2, payment 3] = retained ++ kept ∧
      retained ++ kept = [payment 1, payment 101, payment 2] ∧ retained <+: [payment 1, payment 101] ∧
      ParentsFirst payingCrate retained := by
  have chained : ParentsFirst payingCrate ([childBlock].reverse.flatMap Block.txdata) := by decide
  obtain ⟨retained, kept, isLeft, _, _, older, _, _, _, ordered⟩ :=
    @retention_keeps_dependencies payingCrate ⟨3, 4_000_000⟩ [payment 2, payment 3] ⟨by decide, by decide⟩ (by decide)
      [childBlock]
  exact ⟨retained, kept, isLeft, isLeft.symm.trans (by decide), older, ordered chained⟩

open Rewinding

abbrev Standard (transactions : List Transaction) : Prop :=
  ∀ transaction ∈ transactions, transaction.isCoinbase = false ∧ transaction.weight ≤ 400_000

/-- Payments with different ids, each spending coins of its own and no later output. -/
structure Payable (crate : ChainCrate) (transactions : List Transaction) : Prop where
  distinct : (transactions.map crate.computeTxid).Nodup
  once : (transactions.flatMap fun transaction => transaction.input.map TxIn.previousOutput).Nodup
  grounded : ∀ transaction ∈ transactions, ∀ input ∈ transaction.input,
    input.previousOutput.txid ≠ crate.computeTxid transaction
  ordered : ParentsFirst crate transactions

section
variable {crate : ChainCrate} {limits : PoolLimits} {transactions fewer : List Transaction}

theorem validateSpend_fold {ids seen : List Txid} {spent : List OutPointKey} {inputs : List TxIn}
    (known : ∀ input ∈ inputs, input.previousOutput.txid ∈ ids → input.previousOutput.txid ∈ seen)
    (once : ((inputs.map TxIn.previousOutput).reverse ++ spent).Nodup) :
    foldOutcome (validateSpend ids seen) spent inputs = .ok ((inputs.map TxIn.previousOutput).reverse ++ spent) := by
  induction inputs generalizing spent with
  | nil => rfl
  | cons input _ ih =>
    rw [map_cons, reverse_cons, append_assoc] at once ⊢
    have unspent : input.previousOutput ∉ spent := (nodup_cons.mp once.of_append_right).1
    simp only [foldOutcome_cons, validateSpend, ensure_of (known input mem_cons_self), ensure_of unspent]
    exact ih (fun other later => known other (mem_cons_of_mem _ later)) once

theorem validateTransaction_fold (standard : Standard transactions) {size : Nat} {seen : List Txid}
    (distinct : ((transactions.map crate.computeTxid).reverse ++ seen).Nodup)
    (small : size + totalSize Transaction.totalSize transactions ≤ limits.maxBytes) :
    ∃ total, foldOutcome (validateTransaction crate limits) (size, seen) transactions =
      .ok (total, (transactions.map crate.computeTxid).reverse ++ seen) := by
  induction transactions generalizing size seen with
  | nil => exact ⟨size, rfl⟩
  | cons transaction _ ih =>
    rw [map_cons, reverse_cons, append_assoc] at distinct ⊢
    obtain ⟨⟨isPayment, light⟩, others⟩ := forall_mem_cons.mp standard
    have unseen : crate.computeTxid transaction ∉ seen := (nodup_cons.mp distinct.of_append_right).1
    rw [Foundation.totalSize, map_cons, sum_cons, ← Nat.add_assoc] at small
    have fits : size + transaction.totalSize ≤ limits.maxBytes := (Nat.le_add_right _ _).trans small
    simp only [foldOutcome_cons, validateTransaction, ensure_of isPayment, ensure_of light, ensure_of fits,
      ensure_of unseen]
    exact ih others distinct small

variable (payable : Payable crate transactions)
include payable

theorem Payable.sublist (sub : fewer.Sublist transactions) : Payable crate fewer :=
  ⟨payable.distinct.sublist (sub.map _), payable.once.sublist (sub.flatMap _),
    fun _ member => payable.grounded _ (sub.subset member), payable.ordered.sublist sub⟩

theorem validateSpends_fold {ids seen : List Txid} {spent : List OutPointKey}
    (isIds : ids = (transactions.map crate.computeTxid).reverse ++ seen)
    (once : ((transactions.flatMap fun transaction => transaction.input.map TxIn.previousOutput).reverse ++
      spent).Nodup) :
    ∃ after, foldOutcome (validateSpends crate ids) (seen, spent) transactions = .ok after := by
  induction transactions generalizing seen spent with
  | nil => exact ⟨_, rfl⟩
  | cons transaction _ ih =>
    rw [map_cons, reverse_cons, append_assoc, singleton_append] at isIds
    rw [flatMap_cons, reverse_append, append_assoc] at once
    have known : ∀ input ∈ transaction.input, input.previousOutput.txid ∈ ids → input.previousOutput.txid ∈ seen := by
      intro input member listed
      rw [isIds, mem_append, mem_reverse, mem_cons, mem_map] at listed
      rcases listed with ⟨later, isLater, same⟩ | same | earlier
      · exact absurd same.symm ((pairwise_cons.mp payable.ordered).1 later isLater input member)
      · exact absurd same (payable.grounded transaction mem_cons_self input member)
      · exact earlier
    simp only [foldOutcome_cons, validateSpends, validateSpend_fold known once.of_append_right]
    exact ih (payable.sublist (sublist_cons_self _ _)) isIds once

theorem Payable.validated (standard : Standard transactions) (few : transactions.length ≤ limits.maxTransactions)
    (small : totalSize Transaction.totalSize transactions ≤ limits.maxBytes) :
    validateTransactions crate limits transactions = .ok () := by
  have distinct := payable.distinct
  have once := payable.once
  rw [← nodup_reverse, ← append_nil (reverse _)] at distinct once
  obtain ⟨_, first⟩ := validateTransaction_fold standard distinct ((Nat.zero_add _).le.trans small)
  obtain ⟨_, second⟩ := @validateSpends_fold _ _ payable _ [] [] rfl once
  rw [validateTransactions, ensure_of few, ok_bind, first, ok_bind]
  simp only [second]
  rfl

end

namespace Rewinding

variable (crate : ChainCrate) (limits : PoolLimits)

def connected (state : Rewinding) : List Transaction := state.chain.reverse.flatMap reconsidered

/-- The condition on a step: blocks continue the payments of the chain, and a tip is rewound only while the
pending list is not `mixed`, with payments of standard weight. -/
def Continues (state : Rewinding) (mixed : Bool) : RewindEvent → Prop
  | .connect block => Payable crate (state.connected ++ reconsidered block)
  | .rewind stored | .interrupted stored => mixed = false ∧
      (stored = none ∨ stored = state.chain.head? ∧ ∀ tip ∈ state.chain.head?, Standard (reconsidered tip))
  | .restart | .admission _ => True

def mixes (mixed : Bool) (event : RewindEvent) (next : Rewinding) : Bool :=
  !next.pending.isEmpty && (mixed || event matches .connect _)

def ContinuesAll : Bool → Rewinding → List RewindEvent → Prop
  | _, _, [] => True
  | mixed, state, event :: rest => state.Continues crate mixed event ∧
      ContinuesAll (mixes mixed event (state.step crate limits event)) (state.step crate limits event) rest

/-- What is pending continues the payments of the chain, unless it is mixed. -/
structure Lined (mixed : Bool) (state : Rewinding) : Prop where
  payable : Payable crate state.connected
  pending : mixed = false → ∃ items, state.pending = limits.within items ∧ Standard items ∧
    Payable crate (state.connected ++ items)

variable {crate limits} {state : Rewinding} {mixed : Bool} {tip : Block} {below : List Block}

theorem Lined.of_cleared (payable : Payable crate state.connected) (cleared : state.pending = []) :
    state.Lined crate limits mixed :=
  ⟨payable, fun _ => ⟨[], cleared, nofun, by rwa [append_nil]⟩⟩

theorem Lined.retained (lined : state.Lined crate limits false) (isChain : state.chain = tip :: below)
    (standard : Standard (reconsidered tip)) :
    ∃ pending, state.retainTip crate limits tip (some tip) = .ok { state with pending, persisted := pending } ∧
      ∀ mixed, Lined crate limits mixed { state with pending, persisted := pending, chain := below } := by
  obtain ⟨items, isPending, others, payable⟩ := lined.pending rfl
  rw [connected, isChain, reverse_cons, flatMap_append, flatMap_singleton, append_assoc] at payable
  have next := payable.sublist (sublist_append_right _ _)
  have all : eligible tip = reconsidered tip := by
    refine filter_eq_self.mpr fun transaction member => decide_eq_true (show _ ≤ 4_000_000 from ?_)
    have light := (standard transaction member).2
    have size := totalSize_le_weight transaction
    omega
  have allStandard : Standard (reconsidered tip ++ items) := forall_mem_append.mpr ⟨standard, others⟩
  have isList := all ▸ @retainDisconnectedBlockTransactions_eq _ _ _ tip isPending
  obtain ⟨initial, few, small⟩ := @fitting_spec _ Transaction.totalSize limits.maxTransactions limits.maxBytes
    (reconsidered tip ++ items)
  refine ⟨limits.within (reconsidered tip ++ items), ?_, fun _ => ⟨payable.sublist (sublist_append_left _ _),
    fun _ => ⟨_, rfl, allStandard, payable⟩⟩⟩
  have kept : Standard _ := fun transaction member => allStandard transaction (initial.subset member)
  simp only [retainTip, isList, PoolLimits.within, (next.sublist initial.sublist).validated kept few small]
  rfl

theorem Lined.step (lined : state.Lined crate limits mixed) {event : RewindEvent}
    (continues : state.Continues crate mixed event) :
    (state.step crate limits event).Lined crate limits (mixes mixed event (state.step crate limits event)) := by
  cases event with
  | connect block =>
    have payable : Payable crate (state.step crate limits (.connect block)).connected := by
      simp only [Rewinding.step]
      split
      · simpa [connected, Continues] using continues
      · exact lined.payable
    cases isPending : (state.step crate limits (.connect block)).pending with
    | nil => exact .of_cleared payable isPending
    | cons _ _ => exact ⟨payable, by simp [mixes, isPending]⟩
  | rewind _ =>
    obtain ⟨rfl, isStored⟩ := continues
    simp only [step]
    cases isChain : state.chain with
    | nil => exact ⟨lined.payable, fun _ => lined.pending rfl⟩
    | cons _ below =>
      rw [isChain, head?_cons] at isStored
      rcases isStored with rfl | ⟨rfl, standard⟩
      · obtain ⟨items, isPending, others, payable⟩ := lined.pending rfl
        have fewer : (below.reverse.flatMap reconsidered).Sublist state.connected := by simp [connected, isChain]
        exact ⟨lined.payable.sublist fewer, fun _ =>
          ⟨items, isPending, others, payable.sublist (fewer.append_right _)⟩⟩
      obtain ⟨pending, retains, after⟩ := lined.retained isChain (standard _ rfl)
      simp only [retains]
      obtain ⟨payable, listed⟩ := after false
      exact ⟨payable, fun _ => listed rfl⟩
  | interrupted _ =>
    obtain ⟨rfl, isStored⟩ := continues
    simp only [step]
    cases isChain : state.chain with
    | nil => exact ⟨lined.payable, fun _ => lined.pending rfl⟩
    | cons _ _ =>
      rw [isChain, head?_cons] at isStored
      rcases isStored with rfl | ⟨rfl, standard⟩
      · exact .of_cleared lined.payable rfl
      · obtain ⟨pending, retains, -⟩ := lined.retained isChain (standard _ rfl)
        simp only [retains]
        exact .of_cleared lined.payable rfl
  | restart => exact .of_cleared lined.payable rfl
  | admission finishes =>
    cases finishes with
    | true => exact .of_cleared lined.payable rfl
    | false =>
      cases isPending : state.pending with
      | nil => exact .of_cleared lined.payable isPending
      | cons _ _ =>
        refine ⟨lined.payable, fun unmixed => lined.pending ?_⟩
        simpa [mixes, Rewinding.step, isPending] using unmixed

theorem Lined.run (lined : state.Lined crate limits mixed) {before rest : List RewindEvent}
    (continues : ContinuesAll crate limits mixed state (before ++ rest)) :
    ∃ mixed, (before.foldl (Rewinding.step crate limits) state).Lined crate limits mixed ∧
      ContinuesAll crate limits mixed (before.foldl (Rewinding.step crate limits) state) rest := by
  induction before generalizing state mixed with
  | nil => exact ⟨mixed, lined, continues⟩
  | cons _ _ ih => exact ih (lined.step continues.1) continues.2

/-- In every run under the condition, the store accepts the list of every rewind. -/
theorem rewind_is_never_blocked (crate : ChainCrate) (limits : PoolLimits) (before : List RewindEvent)
    (stored : Option Block) (continues : ContinuesAll crate limits false initial (before ++ [.rewind stored])) :
    ∀ tip below, (run crate limits before).chain = tip :: below →
      ∃ retained, (run crate limits before).retainTip crate limits tip stored = .ok retained := by
  intro tip below isChain
  have start : initial.Lined crate limits false := .of_cleared ⟨.nil, .nil, nofun, .nil⟩ rfl
  obtain ⟨_, lined, ⟨rfl, isStored⟩, -⟩ := start.run continues
  change stored = none ∨ stored = (run crate limits before).chain.head? ∧ _ at isStored
  rcases isStored with rfl | ⟨rfl, standard⟩
  · exact ⟨_, rfl⟩
  · obtain ⟨_, retains, -⟩ := lined.retained isChain (standard tip (isChain ▸ rfl))
    rw [isChain]
    exact ⟨_, retains⟩

end Rewinding

/-- Of two blocks rewound one after the other, the list of the second is accepted over that of the first. -/
theorem rewind_is_never_blocked_once : ∃ retained,
    (run payingCrate ⟨64, 4_000_000⟩ [.connect (payingBlock 1), .connect (payingBlock 2),
      .rewind (some (payingBlock 2))]).retainTip payingCrate ⟨64, 4_000_000⟩ (payingBlock 1) (some (payingBlock 1)) =
      .ok retained := by
  have first : Payable payingCrate (initial.connected ++ reconsidered (payingBlock 1)) :=
    ⟨by decide, by decide, by decide, by decide⟩
  have second : Payable payingCrate [payment 1, payment 2] := ⟨by decide, by decide, by decide, by decide⟩
  exact rewind_is_never_blocked payingCrate ⟨64, 4_000_000⟩ [.connect (payingBlock 1), .connect (payingBlock 2),
    .rewind (some (payingBlock 2))] _
    ⟨first, second, ⟨rfl, .inr ⟨rfl, by decide⟩⟩, ⟨rfl, .inr ⟨rfl, by decide⟩⟩, trivial⟩ _ _ rfl

/-- A payment disconnected on one branch is mined again on the other, whose block is then disconnected as well. -/
theorem rewind_blocked_by_repeated_transaction : ∃ replacement state,
    replacement = ⟨Headers.Fixture.header 3, [coinbaseTransaction, payment 1]⟩ ∧
    state = run payingCrate ⟨64, 4_000_000⟩ [.connect (payingBlock 1), .rewind (some (payingBlock 1)),
      .admission false, .connect replacement] ∧
    state.retainTip payingCrate ⟨64, 4_000_000⟩ replacement (some replacement) =
      .error (.malformed "duplicate persisted transaction ID") := ⟨_, _, rfl, rfl, by decide⟩

end Rbtc.Node
