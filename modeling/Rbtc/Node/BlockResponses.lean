import Rbtc.Chainstate.MerkleTree

/-! Receiving requested blocks from a peer (`p2p.rs`), in full or as BIP152 compact blocks. -/

namespace Rbtc.Node

open Foundation Bitcoin Chainstate Table List Transaction

structure RelayCrate extends ChainCrate where
  checkMerkleRoot : Block → Bool
  computeWtxid : Transaction → Nat
  /-- The short id of a wtxid under the keys of a header and a nonce. -/
  shortId : Header → Nat → Nat → Nat

/-- A compact block. The index of a prefilled transaction counts from the one before it. -/
structure HeaderAndShortIds where
  header : Header
  nonce : Nat
  shortIds : List Nat
  prefilledTxs : List (Nat × Transaction)
  deriving DecidableEq

inductive P2pError where
  | tooManyBlockRequests (count : Nat)
  | duplicateBlockRequest
  | unsolicitedBlock (hash : BlockHash)
  | malformedCompactBlock (reason : String)
  | unexpectedBlockTransactions (hash : BlockHash)
  | wrongBlockTransactionCount (expected actual : Nat)
  | blockNotFound (hash : BlockHash)
  /-- The source names one of the blocks still missing, in the order of its map. -/
  | blockResponseIncomplete
  /-- The peer sends nothing more. -/
  | io
  deriving DecidableEq, Repr

def maxCompactBlockTransactions : Nat := 16_666

structure CompactBlockReconstruction where
  header : Header
  transactions : List (Option Transaction)
  missing : List Nat
  deriving DecidableEq

namespace CompactBlockReconstruction

def vacancies (transactions : List (Option Transaction)) : List Nat :=
  (range transactions.length).filter fun position => transactions[position]? = some none

def setAll (transactions : List (Option Transaction)) (entries : List (Nat × Transaction)) :
    List (Option Transaction) :=
  entries.foldl (fun current entry => current.set entry.1 (some entry.2)) transactions

def prefilledPosition (last : Option Nat) (differential : Nat) : Nat :=
  match last with
  | none => differential
  | some last => last + 1 + differential

def placePrefilled (count : Nat) (progress : List (Option Transaction) × Option Nat)
    (prefilled : Nat × Transaction) : Outcome P2pError (List (Option Transaction) × Option Nat) := do
  let position := prefilledPosition progress.2 prefilled.1
  ensure (position < count) (.refused (.malformedCompactBlock "prefilled transaction index is out of range"))
  return (progress.1.set position (some prefilled.2), some position)

variable (crate : RelayCrate)

def addCandidate (header : Header) (nonce : Nat) (known : Table Nat (Option Transaction)) (candidate : Transaction) :
    Table Nat (Option Transaction) :=
  let wtxid := crate.computeWtxid candidate
  let shortId := crate.shortId header nonce wtxid
  match known.lookup shortId with
  | none => known.insert shortId (some candidate)
  | some none => known
  | some (some existing) => if crate.computeWtxid existing ≠ wtxid then known.insert shortId none else known

def candidateEntries (known : Table Nat (Option Transaction)) (assigned : List (Nat × Nat)) :
    List (Nat × Transaction) :=
  assigned.filterMap fun entry =>
    if (assigned.map Prod.snd).count entry.2 = 1 then ((known.lookup entry.2).getD none).map (entry.1, ·) else none

def new (compact : HeaderAndShortIds) (candidates : List Transaction) :
    Outcome P2pError CompactBlockReconstruction := do
  let count := compact.shortIds.length + compact.prefilledTxs.length
  ensure (0 < count ∧ count ≤ maxCompactBlockTransactions)
    (.refused (.malformedCompactBlock "transaction count is outside consensus bounds"))
  let (placed, _) ← foldOutcome (placePrefilled count) (replicate count none, none) compact.prefilledTxs
  ensure (placed.head?.any (fun first => first.any isCoinbase) = true)
    (.refused (.malformedCompactBlock "coinbase transaction is not prefilled at index zero"))
  ensure ((vacancies placed).length = compact.shortIds.length)
    (.refused (.malformedCompactBlock "short transaction ID count is inconsistent"))
  let known := candidates.foldl (addCandidate crate compact.header compact.nonce) ∅
  let transactions := setAll placed (candidateEntries known ((vacancies placed).zip compact.shortIds))
  return ⟨compact.header, transactions, vacancies transactions⟩

def supply (reconstruction : CompactBlockReconstruction) (response : Option (BlockHash × List Transaction)) :
    Outcome P2pError (List (Option Transaction)) :=
  match response with
  | none => do
      ensure (reconstruction.missing = [])
        (.refused (.malformedCompactBlock "missing transactions were not supplied"))
      return reconstruction.transactions
  | some (hash, transactions) => do
      ensure (reconstruction.missing ≠ [] ∧ hash = crate.blockHash reconstruction.header)
        (.refused (.unexpectedBlockTransactions hash))
      ensure (transactions.length = reconstruction.missing.length)
        (.refused (.wrongBlockTransactionCount reconstruction.missing.length transactions.length))
      return setAll reconstruction.transactions (reconstruction.missing.zip transactions)

/-- The rebuilt block, or nothing when its roots do not match. -/
def complete (reconstruction : CompactBlockReconstruction) (response : Option (BlockHash × List Transaction)) :
    Outcome P2pError (Option Block) := do
  let supplied ← reconstruction.supply crate response
  let txdata ← supplied.mapM fun transaction => require transaction .panicked
  let block : Block := ⟨reconstruction.header, txdata⟩
  return if crate.checkMerkleRoot block && crate.checkWitnessCommitment block then some block else none

variable {crate} {reconstruction : CompactBlockReconstruction}
  {transactions : List (Option Transaction)} {position : Nat}

theorem mem_vacancies : position ∈ vacancies transactions ↔ transactions[position]? = some none := by
  simp only [vacancies, mem_filter, mem_range, decide_eq_true_eq, and_iff_right_iff_imp]
  intro vacant
  exact (List.getElem_of_getElem? vacant).1

theorem length_setAll (transactions : List (Option Transaction)) (entries : List (Nat × Transaction)) :
    (setAll transactions entries).length = transactions.length := by
  induction entries generalizing transactions with
  | nil => rfl
  | cons _ _ ih => exact (ih _).trans length_set

variable {entries : List (Nat × Transaction)}

theorem vacant_of_setAll (vacant : (setAll transactions entries)[position]? = some none) :
    transactions[position]? = some none ∧ position ∉ entries.map Prod.fst := by
  induction entries generalizing transactions with
  | nil => exact ⟨vacant, not_mem_nil⟩
  | cons _ _ ih =>
    obtain ⟨before, others⟩ := ih vacant
    rw [getElem?_set] at before
    split at before
    · split at before <;> cases before
    · next distinct => exact ⟨before, by simp [others, Ne.symm distinct]⟩

theorem getElem?_setAll_of_notMem (unset : position ∉ entries.map Prod.fst) :
    (setAll transactions entries)[position]? = transactions[position]? := by
  induction entries generalizing transactions with
  | nil => rfl
  | cons _ _ ih =>
    rw [map_cons, mem_cons, not_or] at unset
    exact (ih unset.2).trans (getElem?_set_ne (Ne.symm unset.1))

theorem new_yields (compact : HeaderAndShortIds) (candidates : List Transaction) :
    Yields (fun reconstruction => reconstruction.header = compact.header ∧
      reconstruction.missing = vacancies reconstruction.transactions) (new crate compact candidates) := by
  have places : ∀ count, Yields (fun _ => True)
      (foldOutcome (placePrefilled count) (replicate count none, none) compact.prefilledTxs) := by
    intro count
    refine Yields.foldOutcome (fun progress prefilled _ => ?_) trivial _
    exact yields_ensure.bind fun _ _ => trivial
  exact yields_ensure.bind fun _ _ => (places _).bind fun _ _ => yields_ensure.bind fun _ _ =>
    yields_ensure.bind fun _ _ => ⟨rfl, rfl⟩

theorem supply_yields (awaits : reconstruction.missing = vacancies reconstruction.transactions)
    (response : Option (BlockHash × List Transaction)) :
    Yields (fun supplied => none ∉ supplied) (reconstruction.supply crate response) := by
  cases response with
  | none =>
    refine yields_ensure.bind fun _ nothing member => ?_
    obtain ⟨_, vacant⟩ := mem_iff_getElem?.mp member
    have listed := mem_vacancies.mpr vacant
    rw [← awaits, nothing] at listed
    cases listed
  | some _ =>
    refine yields_ensure.bind fun _ _ => yields_ensure.bind fun _ sameLength member => ?_
    obtain ⟨_, vacant⟩ := mem_iff_getElem?.mp member
    obtain ⟨before, unset⟩ := vacant_of_setAll vacant
    rw [map_fst_zip (by omega), awaits] at unset
    exact unset (mem_vacancies.mpr before)

theorem mapM_require_of_whole {supplied : List (Option Transaction)} (whole : none ∉ supplied) :
    ∃ txdata, supplied.mapM (fun transaction => (require transaction .panicked : Outcome P2pError Transaction)) =
      .ok txdata := by
  refine mapM_eq_ok.mpr fun transaction member => ?_
  cases transaction with
  | none => exact absurd member whole
  | some transaction => exact ⟨transaction, rfl⟩

section
variable (awaits : reconstruction.missing = vacancies reconstruction.transactions)
include awaits

theorem complete_yields (response : Option (BlockHash × List Transaction)) :
    Yields (fun completion => ∀ block, completion = some block →
      block.header = reconstruction.header ∧ crate.checkMerkleRoot block = true)
      (reconstruction.complete crate response) := by
  refine (supply_yields awaits response).bind fun supplied whole => ?_
  obtain ⟨_, isData⟩ := mapM_require_of_whole whole
  rw [isData]
  intro block completed
  split at completed
  · next matching =>
    cases completed
    exact ⟨rfl, (Bool.and_eq_true_iff.mp matching).1⟩
  · cases completed

theorem complete_of_supply {response : Option (BlockHash × List Transaction)} {supplied : List (Option Transaction)}
    (supplies : reconstruction.supply crate response = .ok supplied) :
    ∃ completion, reconstruction.complete crate response = .ok completion := by
  have whole := @supply_yields crate _ awaits response
  rw [supplies] at whole
  obtain ⟨_, isData⟩ := mapM_require_of_whole whole
  exact ⟨_, by rw [complete, supplies, ok_bind, isData]; rfl⟩

end

def differentials : Option Nat → List Nat → List Nat
  | _, [] => []
  | last, position :: rest => (position - prefilledPosition last 0) :: differentials (some position) rest

def transactionsAt (block : Block) (positions : List Nat) : List Transaction :=
  positions.filterMap fun position => block.txdata[position]?

def compactOf (crate : RelayCrate) (block : Block) (nonce : Nat) (prefilled : List Nat) : HeaderAndShortIds :=
  { header := block.header
    nonce
    shortIds := (transactionsAt block ((range block.txdata.length).filter (· ∉ prefilled))).map fun transaction =>
      crate.shortId block.header nonce (crate.computeWtxid transaction)
    prefilledTxs := (differentials none prefilled).zip (transactionsAt block prefilled) }

/-- What a peer may prefill: the coinbase and any further transactions, in order. -/
structure Prefills (block : Block) (prefilled : List Nat) : Prop where
  first : prefilled.head? = some 0
  ascending : prefilled.Pairwise (· < ·)
  inside : ∀ position ∈ prefilled, position < block.txdata.length

theorem length_differentials (last : Option Nat) (positions : List Nat) :
    (differentials last positions).length = positions.length := by
  induction positions generalizing last with
  | nil => rfl
  | cons _ _ ih => exact congrArg (· + 1) (ih _)

theorem length_transactionsAt {block : Block} {positions : List Nat}
    (inside : ∀ position ∈ positions, position < block.txdata.length) :
    (transactionsAt block positions).length = positions.length := by
  induction positions with
  | nil => rfl
  | cons _ _ ih =>
    rw [forall_mem_cons] at inside
    rw [transactionsAt, filterMap_cons_some (getElem?_eq_getElem inside.1)]
    exact congrArg (· + 1) (ih inside.2)

theorem placePrefilled_eq {count : Nat} {placed : List (Option Transaction)} {last : Option Nat} {positions : List Nat}
    {transactions : List Transaction} (after : ∀ position ∈ positions, prefilledPosition last 0 ≤ position)
    (ascending : positions.Pairwise (· < ·)) (inside : ∀ position ∈ positions, position < count) :
    ∃ final, foldOutcome (placePrefilled count) (placed, last) ((differentials last positions).zip transactions) =
      .ok (setAll placed (positions.zip transactions), final) := by
  induction positions generalizing placed last transactions with
  | nil => exact ⟨last, rfl⟩
  | cons position _ ih =>
    cases transactions with
    | nil => exact ⟨last, rfl⟩
    | cons _ _ =>
      rw [forall_mem_cons] at after inside
      rw [pairwise_cons] at ascending
      have isPosition : prefilledPosition last (position - prefilledPosition last 0) = position := by
        cases last <;> simp only [prefilledPosition] at after ⊢ <;> omega
      simp only [differentials, zip_cons_cons, foldOutcome_cons, placePrefilled, isPosition, ensure_of inside.1]
      exact ih (fun later isLater => ascending.1 later isLater) ascending.2 inside.2

theorem length_prefilled {block : Block} {prefilled : List Nat} (prefills : Prefills block prefilled) :
    ((range block.txdata.length).filter (· ∉ prefilled)).length + prefilled.length = block.txdata.length := by
  have same : prefilled.Perm ((range block.txdata.length).filter (· ∈ prefilled)) := by
    refine (perm_ext_iff_of_nodup (prefills.ascending.imp Nat.ne_of_lt) (nodup_range.filter _)).mpr ?_
    intro position
    simpa using prefills.inside position
  have split := length_eq_length_filter_add (l := range block.txdata.length) (· ∈ prefilled)
  rw [length_range] at split
  rw [same.length_eq]
  simp only [decide_not] at split ⊢
  omega

theorem new_compactOf {block : Block} {prefilled : List Nat} (prefills : Prefills block prefilled)
    (bounded : block.txdata.length ≤ maxCompactBlockTransactions)
    (coinbase : block.txdata.head?.any isCoinbase = true) (nonce : Nat) (candidates : List Transaction) :
    ∃ reconstruction, new crate (compactOf crate block nonce prefilled) candidates = .ok reconstruction ∧
      reconstruction.transactions.length = block.txdata.length := by
  obtain ⟨rest, rfl⟩ : ∃ rest, prefilled = 0 :: rest := head?_eq_some_iff.mp prefills.first
  have ids : (compactOf crate block nonce (0 :: rest)).shortIds.length =
      ((range block.txdata.length).filter (· ∉ 0 :: rest)).length := by
    rw [compactOf, length_map, length_transactionsAt]
    intro position member
    exact mem_range.mp (mem_of_mem_filter member)
  have count : (compactOf crate block nonce (0 :: rest)).shortIds.length +
      (compactOf crate block nonce (0 :: rest)).prefilledTxs.length = block.txdata.length := by
    rw [ids, compactOf, length_zip, length_differentials, length_transactionsAt prefills.inside, Nat.min_self]
    exact length_prefilled prefills
  obtain ⟨_, placed⟩ := @placePrefilled_eq block.txdata.length (replicate block.txdata.length none) none
    (0 :: rest) (transactionsAt block (0 :: rest)) (fun _ _ => Nat.zero_le _) prefills.ascending prefills.inside
  have keys : ((0 :: rest).zip (transactionsAt block (0 :: rest))).map Prod.fst = 0 :: rest :=
    map_fst_zip (length_transactionsAt prefills.inside).ge
  have vacant : vacancies (setAll (replicate block.txdata.length none)
      ((0 :: rest).zip (transactionsAt block (0 :: rest)))) = (range block.txdata.length).filter (· ∉ 0 :: rest) := by
    rw [vacancies, length_setAll, length_replicate]
    refine filter_congr fun position inside => ?_
    rw [decide_eq_decide]
    constructor
    · intro isVacant
      exact keys ▸ (vacant_of_setAll isVacant).2
    · intro unset
      rw [getElem?_setAll_of_notMem (keys.symm ▸ unset), getElem?_replicate, if_pos (mem_range.mp inside)]
  obtain ⟨first, others, isData⟩ : ∃ first others, block.txdata = first :: others := by
    cases isData : block.txdata with
    | nil => simp [isData] at coinbase
    | cons first others => exact ⟨first, others, rfl⟩
  have atStart : (setAll (replicate block.txdata.length none)
      ((0 :: rest).zip (transactionsAt block (0 :: rest)))).head? = some (some first) := by
    have later : 0 ∉ (rest.zip (transactionsAt block rest)).map Prod.fst := by
      intro member
      obtain ⟨_, isEntry, _⟩ := mem_map.mp member
      have isLater := (pairwise_cons.mp prefills.ascending).1 _ (of_mem_zip isEntry).1
      omega
    have isFirst : block.txdata[0]? = some first := by rw [isData]; rfl
    rw [head?_eq_getElem?, transactionsAt, filterMap_cons_some isFirst]
    exact (getElem?_setAll_of_notMem later).trans (by simp [isData])
  have isCoinbase : first.isCoinbase = true := by simpa [isData] using coinbase
  have bounds : 0 < block.txdata.length ∧ block.txdata.length ≤ maxCompactBlockTransactions :=
    ⟨by rw [isData]; exact Nat.succ_pos _, bounded⟩
  have prefilledTxs : (compactOf crate block nonce (0 :: rest)).prefilledTxs =
      (differentials none (0 :: rest)).zip (transactionsAt block (0 :: rest)) := rfl
  have startsWell : ((some (some first)).any fun start => start.any Transaction.isCoinbase) = true :=
    isCoinbase
  have sameIds := ids.symm
  rw [← vacant] at sameIds
  rw [prefilledTxs] at count
  simp only [new, prefilledTxs, count, ensure_of bounds, ok_bind, placed, atStart, ensure_of startsWell,
    ensure_of sameIds]
  exact ⟨_, rfl, by rw [length_setAll, length_setAll, length_replicate]⟩

end CompactBlockReconstruction

open CompactBlockReconstruction

/-- What a peer sends. Transactions and all other messages only use up the budget. -/
inductive PeerMessage where
  | block (block : Block)
  | compact (compact : HeaderAndShortIds)
  | blockTxn (hash : BlockHash) (transactions : List Transaction)
  | notFound (hashes : List BlockHash)
  | other

/-- The receive loop: open slots by hash, reconstructions that wait, blocks requested in full, and the slots. -/
structure Receiving where
  positions : Table BlockHash Nat
  compactBlocks : Table BlockHash CompactBlockReconstruction
  fallbacks : Finset BlockHash
  blocks : List (Option Block)

namespace Receiving

def initial (expected : List BlockHash) : Receiving :=
  ⟨ofList expected.zipIdx, ∅, ∅, replicate expected.length none⟩

def deliver (state : Receiving) (hash : BlockHash) (block : Block) : Outcome P2pError Receiving := do
  let position ← require (state.positions.lookup hash) .panicked
  ensure (position < state.blocks.length) .panicked
  return { state with positions := state.positions.erase hash, blocks := state.blocks.set position (some block) }

def settle (state : Receiving) (hash : BlockHash) : Option Block → Outcome P2pError Receiving
  | some block => state.deliver hash block
  | none => do
      ensure (hash ∉ state.fallbacks) (.refused (.unsolicitedBlock hash))
      return { state with fallbacks := insert hash state.fallbacks }

variable (crate : RelayCrate) (requestedCompactBlocks : Bool) (candidates : List Transaction)

def step (state : Receiving) : PeerMessage → Outcome P2pError Receiving
  | .block block => do
      let actual := crate.blockHash block.header
      ensure (actual ∈ state.positions) (.refused (.unsolicitedBlock actual))
      let next ← state.deliver actual block
      return { next with
        compactBlocks := state.compactBlocks.erase actual, fallbacks := state.fallbacks.erase actual }
  | .compact compact => do
      let actual := crate.blockHash compact.header
      ensure (requestedCompactBlocks = true ∧ actual ∈ state.positions ∧ actual ∉ state.compactBlocks ∧
        actual ∉ state.fallbacks) (.refused (.unsolicitedBlock actual))
      let reconstruction ← new crate compact candidates
      if reconstruction.missing = [] then
        let completion ← reconstruction.complete crate none
        state.settle actual completion
      else return { state with compactBlocks := state.compactBlocks.insert actual reconstruction }
  | .blockTxn hash transactions => do
      let reconstruction ← require (state.compactBlocks.lookup hash) (.refused (.unexpectedBlockTransactions hash))
      let completion ← reconstruction.complete crate (some (hash, transactions))
      { state with compactBlocks := state.compactBlocks.erase hash }.settle hash completion
  | .notFound hashes =>
    match hashes.find? fun hash => hash ∈ state.positions with
    | some hash => .error (.refused (.blockNotFound hash))
    | none => .ok state
  | .other => .ok state

def receive : Nat → Receiving → List PeerMessage → Outcome P2pError (List (Option Block))
  | 0, state, _ => do
      ensure (state.positions ≠ ∅) .panicked
      .error (.refused .blockResponseIncomplete)
  | _ + 1, _, [] => .error (.refused .io)
  | budget + 1, state, message :: rest => do
      let next ← state.step crate requestedCompactBlocks candidates message
      if next.positions = ∅ then return next.blocks else receive budget next rest

section
variable {crate requestedCompactBlocks candidates} {expected : List BlockHash} {given : Block → Prop}
  {state next : Receiving} {hash : BlockHash} {position : Nat} {block : Block}

/-- The asked block: handed over as a whole, or with a Merkle root that checks. -/
def Serves (crate : RelayCrate) (given : Block → Prop) (hash : BlockHash) (block : Block) : Prop :=
  crate.blockHash block.header = hash ∧ (given block ∨ crate.checkMerkleRoot block = true)

/-- Every slot is open under its hash or holds its block, and only open blocks are being rebuilt. -/
structure Tracked (crate : RelayCrate) (expected : List BlockHash) (given : Block → Prop) (state : Receiving) :
    Prop where
  length : state.blocks.length = expected.length
  wanted : ∀ hash position, state.positions.lookup hash = some position → expected[position]? = some hash
  rebuilt : ∀ hash reconstruction, state.compactBlocks.lookup hash = some reconstruction →
    hash ∈ state.positions ∧ crate.blockHash reconstruction.header = hash ∧
      reconstruction.missing = vacancies reconstruction.transactions
  filled : ∀ position hash, expected[position]? = some hash → state.positions.lookup hash = some position ∨
    ∃ block, state.blocks[position]? = some (some block) ∧ Serves crate given hash block

def delivered (state : Receiving) (hash : BlockHash) (position : Nat) (block : Block) : Receiving :=
  { state with positions := state.positions.erase hash, blocks := state.blocks.set position (some block) }

variable (tracked : state.Tracked crate expected given)
include tracked

theorem Tracked.deliver_eq (isOpen : state.positions.lookup hash = some position) :
    state.deliver hash block = .ok (state.delivered hash position block) := by
  have inside : position < state.blocks.length := by
    rw [tracked.length]
    exact (List.getElem_of_getElem? (tracked.wanted hash position isOpen)).1
  simp only [deliver, isOpen, require, ok_bind, ensure_of inside]
  rfl

theorem Tracked.delivered (isOpen : state.positions.lookup hash = some position) (whole : hash ∉ state.compactBlocks)
    (serves : Serves crate given hash block) : (state.delivered hash position block).Tracked crate expected given := by
  have inSlot := tracked.wanted hash position isOpen
  refine ⟨length_set.trans tracked.length, fun other slot found => ?_, fun other reconstruction found => ?_,
    fun slot other isOther => ?_⟩
  · exact tracked.wanted other slot (lookup_of_erase found)
  · obtain ⟨stillOpen, rest⟩ := tracked.rebuilt other reconstruction found
    refine ⟨?_, rest⟩
    have distinct : other ≠ hash := fun same => whole (same ▸ mem_of_lookup found)
    obtain ⟨slot, isSlot⟩ := mem_iff.mp stillOpen
    exact mem_iff.mpr ⟨slot, by rw [Receiving.delivered, lookup_erase, if_neg distinct, isSlot]⟩
  · simp only [Receiving.delivered, lookup_erase, getElem?_set]
    by_cases same : position = slot
    · subst same
      obtain rfl := Option.mem_unique inSlot isOther
      have inside : position < state.blocks.length := by
        rw [tracked.length]
        exact (List.getElem_of_getElem? inSlot).1
      exact .inr ⟨block, by simp [inside], serves⟩
    · rw [if_neg same]
      refine (tracked.filled slot other isOther).imp_left fun found => ?_
      rw [if_neg, found]
      rintro rfl
      exact same (Option.mem_unique isOpen found)

theorem Tracked.dropped (hash : BlockHash) (fallbacks : Finset BlockHash) :
    Tracked crate expected given { state with compactBlocks := state.compactBlocks.erase hash, fallbacks } := by
  refine ⟨tracked.length, tracked.wanted, fun other reconstruction found => ?_, tracked.filled⟩
  exact tracked.rebuilt other reconstruction (lookup_of_erase found)

theorem Tracked.settle (isOpen : hash ∈ state.positions)
    (whole : hash ∉ state.compactBlocks) {completion : Option Block}
    (serves : ∀ block, completion = some block → Serves crate given hash block) :
    Yields (Tracked crate expected given) (state.settle hash completion) := by
  obtain ⟨_, isPosition⟩ := mem_iff.mp isOpen
  cases completion with
  | none => exact yields_ensure.bind fun _ _ => ⟨tracked.length, tracked.wanted, tracked.rebuilt, tracked.filled⟩
  | some block =>
    rw [Receiving.settle, tracked.deliver_eq isPosition]
    exact tracked.delivered isPosition whole (serves block rfl)

theorem Tracked.step {message : PeerMessage} (isGiven : ∀ block, message = .block block → given block) :
    Yields (Tracked crate expected given) (state.step crate requestedCompactBlocks candidates message) := by
  cases message with
  | block block =>
    refine yields_ensure.bind fun _ isOpen => ?_
    obtain ⟨_, isPosition⟩ := mem_iff.mp isOpen
    rw [tracked.deliver_eq isPosition]
    have whole : crate.blockHash block.header ∉ state.compactBlocks.erase (crate.blockHash block.header) := by
      simp [not_mem_iff]
    exact (tracked.dropped _ _).delivered isPosition whole ⟨rfl, .inl (isGiven block rfl)⟩
  | compact compact =>
    refine yields_ensure.bind fun _ fresh => ?_
    refine (new_yields compact candidates).bind fun reconstruction created => ?_
    obtain ⟨sameHeader, awaits⟩ := created
    split
    · refine (complete_yields awaits none).bind fun completion completed => ?_
      refine tracked.settle fresh.2.1 fresh.2.2.1 fun block isBlock => ?_
      obtain ⟨isHeader, matching⟩ := completed block isBlock
      exact ⟨by rw [isHeader, sameHeader], .inr matching⟩
    refine ⟨tracked.length, tracked.wanted, fun hash other found => ?_, tracked.filled⟩
    rw [lookup_insert] at found
    split at found
    · next same =>
      cases found
      exact ⟨same ▸ fresh.2.1, by rw [sameHeader, same], awaits⟩
    · exact tracked.rebuilt hash other found
  | blockTxn hash _ =>
    refine yields_require.bind fun reconstruction found => ?_
    obtain ⟨isOpen, isHash, awaits⟩ := tracked.rebuilt hash reconstruction found
    refine (complete_yields awaits _).bind fun completion completed => ?_
    have whole : hash ∉ state.compactBlocks.erase hash := by simp [not_mem_iff]
    refine (tracked.dropped hash state.fallbacks).settle isOpen whole fun block isBlock => ?_
    obtain ⟨isHeader, matching⟩ := completed block isBlock
    exact ⟨by rw [isHeader, isHash], .inr matching⟩
  | notFound _ =>
    simp only [Receiving.step]
    split
    · trivial
    · exact tracked
  | other => exact tracked

theorem Tracked.receive (remaining : state.positions ≠ ∅)
    {messages : List PeerMessage} (isGiven : ∀ block, PeerMessage.block block ∈ messages → given block) (budget : Nat) :
    Yields (fun slots => slots.length = expected.length ∧ ∀ (position : Nat) hash, expected[position]? = some hash →
      ∃ block, slots[position]? = some (some block) ∧ Serves crate given hash block)
      (receive crate requestedCompactBlocks candidates budget state messages) := by
  induction budget generalizing state messages with
  | zero =>
    rw [Receiving.receive, ensure_of remaining]
    trivial
  | succ _ ih =>
    cases messages with
    | nil => trivial
    | cons _ _ =>
      refine (tracked.step fun block isBlock => isGiven block (isBlock ▸ mem_cons_self)).bind fun next after => ?_
      split
      · next done =>
        refine ⟨after.length, fun position hash isHash => (after.filled position hash isHash).resolve_left ?_⟩
        rw [done]
        nofun
      · next isOpen => exact ih after isOpen fun block later => isGiven block (mem_cons_of_mem _ later)

end

section
variable {crate requestedCompactBlocks candidates} {expected : List BlockHash} {given : Block → Prop}
  {actual : BlockHash → Block} {state next : Receiving} {hash : BlockHash}

structure Holds (crate : RelayCrate) (expected : List BlockHash) (actual : BlockHash → Block) : Prop where
  hashed : ∀ hash ∈ expected, crate.blockHash (actual hash).header = hash
  bounded : ∀ hash ∈ expected, (actual hash).txdata.length ≤ maxCompactBlockTransactions
  coinbase : ∀ hash ∈ expected, (actual hash).txdata.head?.any isCoinbase = true

section
variable (crate requestedCompactBlocks candidates actual)

/-- The answers to what was asked for and not yet received, the first maybe in compact form. -/
inductive Honest (state : Receiving) : PeerMessage → Prop where
  | full (hash : BlockHash) (isOpen : hash ∈ state.positions) (whole : hash ∉ state.compactBlocks) :
      Honest state (.block (actual hash))
  | compact (hash : BlockHash) (nonce : Nat) (prefilled : List Nat) (requested : requestedCompactBlocks = true)
      (isOpen : hash ∈ state.positions) (whole : hash ∉ state.compactBlocks) (first : hash ∉ state.fallbacks)
      (prefills : Prefills (actual hash) prefilled) :
      Honest state (.compact (compactOf crate (actual hash) nonce prefilled))
  | missing (hash : BlockHash) (reconstruction : CompactBlockReconstruction)
      (awaited : state.compactBlocks.lookup hash = some reconstruction) :
      Honest state (.blockTxn hash (transactionsAt (actual hash) reconstruction.missing))

/-- Such answers one after the other, until every block is there. -/
def Answered : Receiving → List PeerMessage → Prop
  | state, [] => state.positions = ∅
  | state, message :: rest => state.positions ≠ ∅ ∧ Honest crate requestedCompactBlocks actual state message ∧
      ∀ next, state.step crate requestedCompactBlocks candidates message = .ok next → Answered next rest

end

/-- Reconstructions wait for some of the block's transactions, and no such block is requested in full. -/
structure Orderly (actual : BlockHash → Block) (state : Receiving) : Prop where
  sized : ∀ hash reconstruction, state.compactBlocks.lookup hash = some reconstruction →
    reconstruction.missing ≠ [] ∧ reconstruction.transactions.length = (actual hash).txdata.length
  apart : ∀ hash, hash ∈ state.compactBlocks → hash ∉ state.fallbacks

def cost (state : Receiving) (hash : BlockHash) : Nat :=
  if state.positions.lookup hash = none then 0
  else if state.compactBlocks.lookup hash = none then if hash ∈ state.fallbacks then 1 else 3 else 2

theorem cost_congr {other : BlockHash} (positions : next.positions.lookup other = state.positions.lookup other)
    (rebuilt : next.compactBlocks.lookup other = state.compactBlocks.lookup other)
    (asked : other ∈ next.fallbacks ↔ other ∈ state.fallbacks) : next.cost other = state.cost other := by
  unfold cost
  rw [positions, rebuilt]
  simp [asked]

theorem Orderly.erase (orderly : state.Orderly actual) (hash : BlockHash) {fallbacks : Finset BlockHash}
    (fewer : fallbacks ⊆ state.fallbacks) {positions : Table BlockHash Nat} {blocks : List (Option Block)} :
    Orderly actual ⟨positions, state.compactBlocks.erase hash, fallbacks, blocks⟩ := by
  refine ⟨fun other reconstruction found => orderly.sized other reconstruction (lookup_of_erase found),
    fun other rebuilt listed => ?_⟩
  obtain ⟨_, found⟩ := mem_iff.mp rebuilt
  exact orderly.apart other (mem_of_lookup (lookup_of_erase found)) (fewer listed)

def remaining (expected : List BlockHash) (state : Receiving) : Nat := (expected.map state.cost).sum

theorem remaining_lt (isExpected : hash ∈ expected) (less : next.cost hash < state.cost hash)
    (others : ∀ other, other ≠ hash → next.cost other = state.cost other) :
    next.remaining expected < state.remaining expected := by
  refine sum_lt_sum _ _ (fun other _ => ?_) ⟨hash, isExpected, less⟩
  by_cases same : other = hash
  · rw [same]
    exact less.le
  · exact (others other same).le

section
variable (tracked : state.Tracked crate expected given) (orderly : state.Orderly actual)
include tracked orderly

theorem Tracked.settle_ok
    (isOpen : hash ∈ state.positions) (whole : hash ∉ state.compactBlocks) (unasked : hash ∉ state.fallbacks)
    (completion : Option Block) : ∃ next, state.settle hash completion = .ok next ∧ next.Orderly actual ∧
      next.cost hash ≤ 1 ∧ ∀ other, other ≠ hash → next.cost other = state.cost other := by
  obtain ⟨_, isPosition⟩ := mem_iff.mp isOpen
  rw [not_mem_iff] at whole
  cases completion with
  | none =>
    refine ⟨{ state with fallbacks := insert hash state.fallbacks }, ?_, ⟨orderly.sized, fun other rebuilt => ?_⟩,
      ?_, fun other distinct => ?_⟩
    · simp only [Receiving.settle, ensure_of unasked]
      rfl
    · rw [Finset.mem_insert, not_or]
      refine ⟨?_, orderly.apart other rebuilt⟩
      rintro rfl
      exact not_mem_iff.mpr whole rebuilt
    · simp [cost, isPosition, whole]
    · exact cost_congr rfl rfl (by simp [distinct])
  | some _ =>
    refine ⟨_, tracked.deliver_eq isPosition, ⟨orderly.sized, orderly.apart⟩, ?_, fun other distinct => ?_⟩
    · simp [cost, Receiving.delivered]
    · exact cost_congr (by rw [Receiving.delivered, lookup_erase, if_neg distinct]) rfl Iff.rfl

theorem Honest.step (holds : Holds crate expected actual) {message : PeerMessage}
    (honest : Honest crate requestedCompactBlocks actual state message) :
    ∃ next, state.step crate requestedCompactBlocks candidates message = .ok next ∧ next.Orderly actual ∧
      next.remaining expected < state.remaining expected := by
  have expects : ∀ hash, hash ∈ state.positions → hash ∈ expected := by
    intro hash isOpen
    obtain ⟨position, isPosition⟩ := mem_iff.mp isOpen
    exact mem_of_getElem? (tracked.wanted hash position isPosition)
  cases honest with
  | full hash isOpen whole =>
    obtain ⟨position, isPosition⟩ := mem_iff.mp isOpen
    have isHash := holds.hashed hash (expects hash isOpen)
    refine ⟨{ state.delivered hash position (actual hash) with
      compactBlocks := state.compactBlocks.erase hash, fallbacks := state.fallbacks.erase hash }, ?_, ?_,
      remaining_lt (expects hash isOpen) ?_ fun other distinct => ?_⟩
    · simp only [Receiving.step, isHash, ensure_of isOpen, tracked.deliver_eq isPosition]
      rfl
    · exact orderly.erase hash (Finset.erase_subset _ _)
    · rw [not_mem_iff] at whole
      simp only [cost, Receiving.delivered, lookup_erase_self, if_true, isPosition, whole, reduceCtorEq, if_false]
      split <;> omega
    · refine cost_congr ?_ ?_ (by simp [distinct]) <;> simp [Receiving.delivered, lookup_erase, if_neg distinct]
  | compact hash nonce prefilled requested isOpen whole first prefills =>
    have isExpected := expects hash isOpen
    have isHash : crate.blockHash (compactOf crate (actual hash) nonce prefilled).header = hash :=
      holds.hashed hash isExpected
    obtain ⟨reconstruction, created, sameLength⟩ := @new_compactOf crate _ _ prefills
      (holds.bounded hash isExpected) (holds.coinbase hash isExpected) nonce candidates
    obtain ⟨_, isPosition⟩ := mem_iff.mp isOpen
    have atMost : state.cost hash = 3 := by simp [cost, isPosition, not_mem_iff.mp whole, first]
    have accepted : requestedCompactBlocks = true ∧ hash ∈ state.positions ∧ hash ∉ state.compactBlocks ∧
        hash ∉ state.fallbacks := ⟨requested, isOpen, whole, first⟩
    have awaits := @new_yields crate (compactOf crate (actual hash) nonce prefilled) candidates
    rw [created] at awaits
    simp only [Receiving.step, isHash, ensure_of accepted, ok_bind, created]
    split
    · next nothing =>
      obtain ⟨completion, completed⟩ := @complete_of_supply crate _ awaits.2 none _
        (by rw [supply, ensure_of nothing]; rfl)
      obtain ⟨next, settled, after, _, others⟩ := tracked.settle_ok orderly isOpen whole first completion
      rw [completed]
      exact ⟨next, settled, after, remaining_lt isExpected (by omega) others⟩
    next waits =>
      refine ⟨_, rfl, ⟨fun other found isFound => ?_, fun other rebuilt => ?_⟩,
        remaining_lt isExpected ?_ fun other distinct => ?_⟩
      · rw [lookup_insert] at isFound
        split at isFound
        · next same =>
          cases isFound
          exact ⟨waits, by rw [same, sameLength]⟩
        · exact orderly.sized other found isFound
      · by_cases same : other = hash
        · exact same ▸ first
        · obtain ⟨_, isFound⟩ := mem_iff.mp rebuilt
          rw [lookup_insert, if_neg same] at isFound
          exact orderly.apart other (mem_of_lookup isFound)
      · rw [atMost]
        simp [cost, isPosition]
      · exact cost_congr rfl (by rw [lookup_insert, if_neg distinct]) Iff.rfl
  | missing hash reconstruction awaited =>
    obtain ⟨isOpen, isHash, awaits⟩ := tracked.rebuilt hash reconstruction awaited
    have unasked := orderly.apart hash (mem_of_lookup awaited)
    obtain ⟨waits, sameLength⟩ := orderly.sized hash reconstruction awaited
    obtain ⟨_, isPosition⟩ := mem_iff.mp isOpen
    have inside : ∀ slot ∈ reconstruction.missing, slot < (actual hash).txdata.length := by
      intro slot isMissing
      rw [awaits, mem_vacancies] at isMissing
      rw [← sameLength]
      exact (List.getElem_of_getElem? isMissing).1
    have asked : reconstruction.missing ≠ [] ∧ hash = crate.blockHash reconstruction.header := ⟨waits, isHash.symm⟩
    obtain ⟨completion, completed⟩ := @complete_of_supply crate _ awaits
      (some (hash, transactionsAt (actual hash) reconstruction.missing)) _
      (by rw [supply, ensure_of asked, ensure_of (length_transactionsAt inside)]; rfl)
    have whole : hash ∉ state.compactBlocks.erase hash := by simp [not_mem_iff]
    obtain ⟨next, settled, after, _, others⟩ :=
      (tracked.dropped hash state.fallbacks).settle_ok (orderly.erase hash (Finset.Subset.refl _))
        isOpen whole unasked completion
    refine ⟨next, ?_, after, remaining_lt (expects hash isOpen) ?_ fun other distinct => ?_⟩
    · simp [Receiving.step, awaited, completed, settled]
    · have two : state.cost hash = 2 := by simp [cost, isPosition, awaited]
      omega
    · rw [others other distinct]
      exact cost_congr rfl (by rw [lookup_erase, if_neg distinct]) Iff.rfl

end

theorem remaining_le (expected : List BlockHash) (state : Receiving) :
    state.remaining expected ≤ expected.length * 3 := by
  have bounded : ∀ value ∈ expected.map state.cost, value ≤ 3 := by
    intro value member
    obtain ⟨_, -, rfl⟩ := mem_map.mp member
    unfold cost
    split_ifs <;> omega
  simpa [remaining] using sum_le_card_nsmul _ 3 bounded

theorem Answered.receive (tracked : state.Tracked crate expected given) (orderly : state.Orderly actual)
    (holds : Holds crate expected actual) {messages : List PeerMessage}
    (isGiven : ∀ block, PeerMessage.block block ∈ messages → given block)
    (answered : Answered crate requestedCompactBlocks candidates actual state messages) :
    messages.length ≤ state.remaining expected ∧ ∀ budget, messages.length ≤ budget → state.positions ≠ ∅ →
      ∃ slots, receive crate requestedCompactBlocks candidates budget state messages = .ok slots := by
  induction messages generalizing state with
  | nil => exact ⟨Nat.zero_le _, fun _ _ isOpen => absurd answered isOpen⟩
  | cons message _ ih =>
    obtain ⟨_, honest, continues⟩ := answered
    obtain ⟨next, taken, after, _⟩ := @Honest.step crate requestedCompactBlocks candidates _ _ _ _ tracked orderly
      holds _ honest
    have stays := @Tracked.step crate requestedCompactBlocks candidates _ _ _ tracked message fun block isBlock =>
      isGiven block (isBlock ▸ mem_cons_self)
    rw [taken] at stays
    obtain ⟨_, succeeds⟩ := ih stays after (fun block later => isGiven block (mem_cons_of_mem _ later))
      (continues next taken)
    rw [length_cons]
    refine ⟨by omega, fun budget enough _ => ?_⟩
    obtain ⟨left, rfl⟩ : ∃ left, budget = left + 1 := ⟨budget - 1, by omega⟩
    rw [Receiving.receive, taken, ok_bind]
    split
    · exact ⟨next.blocks, rfl⟩
    · next stillOpen => exact succeeds left (by omega) stillOpen

end

theorem initial_lookup {expected : List BlockHash} (distinct : expected.Nodup) {position : Nat} {hash : BlockHash}
    (isHash : expected[position]? = some hash) : (initial expected).positions.lookup hash = some position := by
  have keys : (expected.zipIdx.map Prod.fst).Nodup := by
    rw [zipIdx_map_fst]
    exact distinct
  exact @lookup_ofList_of_mem _ _ _ _ keys (hash, position) (mem_zipIdx_iff_getElem?.mpr isHash)

variable {expected : List BlockHash}

theorem initial_tracked (crate : RelayCrate) (distinct : expected.Nodup)
    (given : Block → Prop) : (initial expected).Tracked crate expected given := by
  refine ⟨length_replicate, fun hash position found => ?_, fun hash reconstruction found => ?_,
    fun position hash isHash => .inl (initial_lookup distinct isHash)⟩
  · exact mem_zipIdx_iff_getElem?.mp (mem_of_lookup_ofList found)
  · cases (lookup_empty hash).symm.trans found

theorem initial_open (distinct : expected.Nodup) (requested : expected ≠ []) : (initial expected).positions ≠ ∅ := by
  obtain ⟨first, _, rfl⟩ := exists_cons_of_ne_nil requested
  intro nothing
  have found := @initial_lookup _ distinct 0 first rfl
  rw [nothing] at found
  cases found

theorem receive_take (crate : RelayCrate) (requestedCompactBlocks : Bool) (candidates : List Transaction) (budget : Nat)
    (state : Receiving) (messages : List PeerMessage) :
    receive crate requestedCompactBlocks candidates budget state (messages.take budget) =
      receive crate requestedCompactBlocks candidates budget state messages := by
  induction budget generalizing state messages with
  | zero => rfl
  | succ _ ih =>
    cases messages with
    | nil => rfl
    | cons _ _ => simp [receive, ih]

end Receiving

open Receiving

inductive BlockRequest where
  | direct
  | pipelined

def maxResponseMessages : Nat := 32

def BlockRequest.limit : BlockRequest → Nat
  | .direct => 16
  | .pipelined => 128

def BlockRequest.budget : BlockRequest → Nat → Nat
  | .direct, _ => maxResponseMessages
  | .pipelined, count => count * 2 + maxResponseMessages

def receiveBlocks (crate : RelayCrate) (request : BlockRequest) (requestedCompactBlocks : Bool)
    (expected : List BlockHash) (candidates : List Transaction) (messages : List PeerMessage) :
    Outcome P2pError (List Block) := do
  ensure (expected.length ≤ request.limit) (.refused (.tooManyBlockRequests expected.length))
  ensure expected.Nodup (.refused .duplicateBlockRequest)
  let slots ← if expected = [] then pure [] else
    receive crate requestedCompactBlocks candidates (request.budget expected.length) (initial expected) messages
  slots.mapM fun block => require block .panicked

theorem mapM_slots {expected : List BlockHash} {slots : List (Option Block)} {good : BlockHash → Block → Prop}
    (length : slots.length = expected.length) (filled : ∀ (position : Nat) hash, expected[position]? = some hash →
      ∃ block, slots[position]? = some (some block) ∧ good hash block) :
    ∃ blocks, slots.mapM (fun block => (require block .panicked : Outcome P2pError Block)) = .ok blocks ∧
      blocks.length = expected.length ∧ ∀ (position : Nat) hash, expected[position]? = some hash →
        ∃ block, blocks[position]? = some block ∧ good hash block := by
  obtain ⟨blocks, mapped⟩ : ∃ blocks,
      slots.mapM (fun block => (require block .panicked : Outcome P2pError Block)) = .ok blocks := by
    refine mapM_eq_ok.mpr fun slot member => ?_
    obtain ⟨position, isSlot⟩ := List.mem_iff_getElem?.mp member
    have inside := (List.getElem_of_getElem? isSlot).1
    rw [length] at inside
    obtain ⟨block, isBlock, -⟩ := filled position _ (getElem?_eq_getElem inside)
    obtain rfl := Option.mem_unique isSlot isBlock
    exact ⟨block, rfl⟩
  obtain ⟨sameLength, aligned⟩ := getElem?_of_mapM mapped
  refine ⟨blocks, mapped, sameLength.trans length, fun position hash isHash => ?_⟩
  obtain ⟨_, isSlot, isGood⟩ := filled position hash isHash
  have inside : position < blocks.length := sameLength ▸ (List.getElem_of_getElem? isSlot).1
  cases aligned position _ _ isSlot (getElem?_eq_getElem inside)
  exact ⟨_, getElem?_eq_getElem inside, isGood⟩

/-- The loop never panics, returns the requested blocks in order, and succeeds on honest answers
within the budget. -/
theorem block_responses_received (crate : RelayCrate) (request : BlockRequest) (requestedCompactBlocks : Bool)
    (expected : List BlockHash) (candidates : List Transaction) (distinct : expected.Nodup)
    (few : expected.length ≤ request.limit) : (∀ messages, Yields (fun blocks => blocks.length = expected.length ∧
      ∀ (position : Nat) hash, expected[position]? = some hash → ∃ block, blocks[position]? = some block ∧
        crate.blockHash block.header = hash ∧ (PeerMessage.block block ∈ messages ∨ crate.checkMerkleRoot block = true))
      (receiveBlocks crate request requestedCompactBlocks expected candidates messages)) ∧
    (∀ messages, receiveBlocks crate request requestedCompactBlocks expected candidates
        (messages.take (request.budget expected.length)) =
      receiveBlocks crate request requestedCompactBlocks expected candidates messages) ∧
    ∀ actual messages, Receiving.Holds crate expected actual →
      Receiving.Answered crate requestedCompactBlocks candidates actual (initial expected) messages →
      messages.length ≤ expected.length * 3 ∧ (messages.length ≤ request.budget expected.length →
        ∃ blocks, receiveBlocks crate request requestedCompactBlocks expected candidates messages = .ok blocks) := by
  by_cases nothing : expected = []
  · subst nothing
    have empty : ∀ messages, receiveBlocks crate request requestedCompactBlocks [] candidates messages = .ok [] := by
      intro messages
      rfl
    simp only [empty]
    refine ⟨fun _ => ⟨rfl, nofun⟩, fun _ => trivial, fun actual messages _ answered => ?_⟩
    cases messages with
    | nil => exact ⟨Nat.zero_le _, fun _ => ⟨[], rfl⟩⟩
    | cons _ _ => exact absurd rfl answered.1
  have start := fun messages : List PeerMessage =>
    initial_tracked crate distinct fun block => PeerMessage.block block ∈ messages
  have isOpen := initial_open distinct nothing
  have unfolded : ∀ messages, receiveBlocks crate request requestedCompactBlocks expected candidates messages =
      receive crate requestedCompactBlocks candidates (request.budget expected.length)
        (initial expected) messages >>= fun slots => slots.mapM fun block => require block .panicked := by
    simp [receiveBlocks, ensure_of few, ensure_of distinct, if_neg nothing]
  have returns := fun messages => @Receiving.Tracked.receive crate requestedCompactBlocks candidates _ _ _
    (start messages) isOpen messages (fun _ member => member) (request.budget expected.length)
  refine ⟨fun messages => ?_, fun messages => ?_, fun actual messages holds answered => ?_⟩
  · rw [unfolded]
    refine (returns messages).bind fun slots returned => ?_
    obtain ⟨blocks, mapped, sameLength, filled⟩ := mapM_slots returned.1 returned.2
    rw [mapped]
    exact ⟨sameLength, filled⟩
  · rw [unfolded, unfolded, receive_take]
  have orderly : (initial expected).Orderly actual := ⟨nofun, nofun⟩
  obtain ⟨short, succeeds⟩ := answered.receive (start messages) orderly holds fun _ member => member
  refine ⟨short.trans (remaining_le expected _), fun enough => ?_⟩
  obtain ⟨_, received⟩ := succeeds _ enough isOpen
  have returned := returns messages
  rw [received] at returned
  obtain ⟨blocks, mapped, -⟩ := mapM_slots returned.1 returned.2
  exact ⟨blocks, by rw [unfolded, received, ok_bind, mapped]⟩

def numbered (wtxid : Nat) : Transaction := ⟨2, wtxid, [⟨⟨⟨0⟩, 0⟩, [], 0, []⟩], []⟩

def blockCoinbase : Transaction := ⟨2, 0, [⟨.null, [], 0, []⟩], []⟩

def collidingBlock (hash : BlockHash) : Block :=
  ⟨Headers.Fixture.header hash.value, [blockCoinbase, numbered 1, numbered 2]⟩

def collidingCrate : RelayCrate :=
  { pairingCrate with
    blockHash := fun header => ⟨header.nonce⟩
    checkMerkleRoot := fun block => decide (numbered 3 ∉ block.txdata)
    computeWtxid := lockTime
    shortId := fun _ _ wtxid => wtxid % 2 }

def collidingAnswers (hash : BlockHash) : List PeerMessage :=
  [.compact (compactOf collidingCrate (collidingBlock hash) 0 [0]), .blockTxn hash [numbered 2],
    .block (collidingBlock hash)]

theorem colliding_holds (expected : List BlockHash) : Holds collidingCrate expected collidingBlock :=
  ⟨fun _ _ => rfl, fun _ _ => by simp [collidingBlock, maxCompactBlockTransactions], fun _ _ => rfl⟩

/-- Whether a message is an honest answer of a peer that prefills the coinbase alone. -/
def honestly (state : Receiving) : PeerMessage → Bool
  | .block block =>
    let hash := collidingCrate.blockHash block.header
    block = collidingBlock hash ∧ hash ∈ state.positions ∧ hash ∉ state.compactBlocks
  | .compact compact =>
    let hash := collidingCrate.blockHash compact.header
    compact = compactOf collidingCrate (collidingBlock hash) 0 [0] ∧ hash ∈ state.positions ∧
      hash ∉ state.compactBlocks ∧ hash ∉ state.fallbacks
  | .blockTxn hash transactions => (state.compactBlocks.lookup hash).any fun reconstruction =>
      transactions = transactionsAt (collidingBlock hash) reconstruction.missing
  | _ => false

def answersAll : Receiving → List PeerMessage → Bool
  | state, [] => state.positions = ∅
  | state, message :: rest => state.positions ≠ ∅ && honestly state message &&
      match state.step collidingCrate true [numbered 3] message with
      | .ok next => answersAll next rest
      | .error _ => true

variable {state : Receiving} {messages : List PeerMessage}

theorem honest_of_honestly {message : PeerMessage} (checked : honestly state message = true) :
    Honest collidingCrate true collidingBlock state message := by
  cases message with
  | block _ =>
    obtain ⟨isBlock, isOpen, whole⟩ := of_decide_eq_true checked
    exact isBlock ▸ .full _ isOpen whole
  | compact _ =>
    obtain ⟨isCompact, isOpen, whole, first⟩ := of_decide_eq_true checked
    exact isCompact ▸ .compact _ 0 [0] rfl isOpen whole first ⟨rfl, pairwise_singleton _ _, by simp [collidingBlock]⟩
  | blockTxn hash _ =>
    obtain ⟨reconstruction, awaited, supplied⟩ := (Option.any_eq_true _ _).mp checked
    exact of_decide_eq_true supplied ▸ .missing hash reconstruction awaited
  | notFound _ => cases checked
  | other => cases checked

theorem answered_of_answersAll (checked : answersAll state messages = true) :
    Answered collidingCrate true [numbered 3] collidingBlock state messages := by
  induction messages generalizing state with
  | nil => exact of_decide_eq_true (p := state.positions = ∅) checked
  | cons _ _ ih =>
    simp only [answersAll, Bool.and_eq_true, decide_eq_true_eq] at checked
    obtain ⟨⟨remaining, honest⟩, continues⟩ := checked
    refine ⟨remaining, honest_of_honestly honest, fun next taken => ih ?_⟩
    rwa [taken] at continues

theorem block_responses_received_collision : ∃ blocks,
    receiveBlocks collidingCrate .direct true [⟨1⟩, ⟨2⟩] [numbered 3] ([⟨1⟩, ⟨2⟩].flatMap collidingAnswers) =
    .ok blocks ∧
      blocks.length = 2 := by
  have distinct : [BlockHash.mk 1, BlockHash.mk 2].Nodup := by decide
  obtain ⟨returns, -, succeeds⟩ :=
    block_responses_received collidingCrate .direct true [⟨1⟩, ⟨2⟩] [numbered 3] distinct (by decide)
  obtain ⟨blocks, received⟩ :=
    (succeeds collidingBlock ([⟨1⟩, ⟨2⟩].flatMap collidingAnswers) (colliding_holds _)
      (answered_of_answersAll (by decide +kernel))).2 (by decide)
  have returned := returns ([⟨1⟩, ⟨2⟩].flatMap collidingAnswers)
  rw [received] at returned
  exact ⟨blocks, received, returned.1⟩

/-- Eleven blocks, each with a colliding candidate: the 33 answers of an honest peer exceed the budget of 32. -/
theorem colliding_answers_exceed_budget : ∃ expected messages,
    expected.Nodup ∧ expected.length ≤ BlockRequest.direct.limit ∧ Holds collidingCrate expected collidingBlock ∧
      Answered collidingCrate true [numbered 3] collidingBlock (initial expected) messages ∧
      receiveBlocks collidingCrate .direct true expected [numbered 3] messages =
        .error (.refused .blockResponseIncomplete) := by
  have distinct : ((range 11).map BlockHash.mk).Nodup := by decide
  refine ⟨_, ((range 11).map BlockHash.mk).flatMap collidingAnswers, distinct, by decide, colliding_holds _,
    answered_of_answersAll ?_, ?_⟩ <;> decide +kernel

end Rbtc.Node
