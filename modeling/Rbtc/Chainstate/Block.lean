import Rbtc.Chainstate.Coins

/-! Checking a transaction against the coins it spends and a block against its rules (`chainstate.rs`,
`consensus.rs`), and the loops that apply or prepare a block. -/

namespace Rbtc.Chainstate

open Foundation Bitcoin Script

structure ChainCrate extends HeaderCrate where
  computeTxid : Transaction → Txid
  /-- Double SHA-256 of two hashes, as numbers. -/
  hashPair : Nat → Nat → Nat
  checkWitnessCommitment : Block → Bool
  /-- Whether a block satisfies a BIP325 challenge. -/
  signetSolution : Block → List UInt8 → Bool
  /-- `bitcoinconsensus::verify_transaction_with_flags` on the spent scripts and values: `none` when it
  accepts, else the failing input if there is one. -/
  verifyTransaction : Transaction → List (List UInt8 × Nat) → Nat → Option (Option Nat)

inductive ConsensusError where
  | amountOutOfRange
  | scriptTooLarge
  | prevoutCount (prevouts inputs : Nat)
  | transaction
  | script (input : Nat)
  deriving DecidableEq, Repr

section
variable (crate : ChainCrate)

def spentOutput (utxo : Utxo) : Except ConsensusError (List UInt8 × Nat) := do
  ensure (utxo.scriptPubkey.length < 2 ^ 32) .scriptTooLarge
  ensure (utxo.valueSats < 2 ^ 63) .amountOutOfRange
  return (utxo.scriptPubkey, utxo.valueSats)

def verifyTransactionScriptsWithFlags (transaction : Transaction) (prevouts : List Utxo)
    (flags : Nat) : Except ConsensusError Unit := do
  ensure (transaction.input.length = prevouts.length) (.prevoutCount prevouts.length transaction.input.length)
  let spentOutputs ← prevouts.mapM spentOutput
  match crate.verifyTransaction transaction spentOutputs flags with
  | none => return ()
  | some none => throw .transaction
  | some (some input) => throw (.script input)

end

def coinbaseMaturity : Nat := 100

def maxMoneySats : Nat := 21_000_000 * 100_000_000

def maxScriptSize : Nat := 10_000

/-- Keys charged for an `OP_CHECKMULTISIG` whose key count is not a known push. -/
def maxPubkeysPerMultisig : Nat := 20

structure ValidatedTransaction where
  txid : Txid
  inputValueSats : Nat
  outputValueSats : Nat
  sigopCost : Nat
  deriving DecidableEq, Repr

/-- A transaction resolved and checked against a UTXO view, not yet written. -/
structure PreparedTransaction where
  validated : ValidatedTransaction
  spent : List OutPointKey
  created : List CoinEntry
  prevouts : List Utxo
  deriving DecidableEq, Repr

inductive ChainstateError where
  | utxo (error : UtxoError)
  | script (error : ConsensusError)
  | valueOverflow
  | inflation
  | immatureCoinbase (outpoint : OutPointKey) (maturesAt : Nat)
  | coinbaseScriptSize
  | noInputs
  | noOutputs
  | moneyRange
  | nonFinalLockTime (lockTime context : Nat)
  | relativeHeightLock (outpoint : OutPointKey) (minimumHeight : Nat)
  | relativeTimeLock (outpoint : OutPointKey) (minimumMtp : Nat)
  | duplicateInput (outpoint : OutPointKey)
  | nullPrevout
  | oversize
  deriving DecidableEq, Repr

def decodePushnum (opcode : UInt8) : Option Nat :=
  if 0x51 ≤ opcode ∧ opcode ≤ 0x60 then some (opcode.toNat - 0x50) else none

def opcodeSigops (accurate : Bool) (previousPushnum : Option Nat) (opcode : UInt8) : Nat :=
  if opcode = 0xac ∨ opcode = 0xad then 1
  else if opcode = 0xae ∨ opcode = 0xaf then
    match accurate, previousPushnum with
    | true, some keys => keys
    | _, _ => maxPubkeysPerMultisig
  else 0

def countSigopsFrom (accurate : Bool) : Option Nat → List (Option Instruction) → Nat
  | _, [] | _, none :: _ => 0
  | _, some (.pushBytes _) :: rest => countSigopsFrom accurate none rest
  | previousPushnum, some (.op opcode) :: rest =>
    opcodeSigops accurate previousPushnum opcode + countSigopsFrom accurate (decodePushnum opcode) rest

def countScriptSigops (script : List UInt8) (accurate : Bool) : Nat :=
  countSigopsFrom accurate none (instructions script)

section
variable (transaction : Transaction)

def transactionLegacySigops : Nat :=
  (transaction.input.map fun input => countScriptSigops input.scriptSig false).sum +
    (transaction.output.map fun output => countScriptSigops output.scriptPubkey false).sum

def legacySigopCost : Nat := transactionLegacySigops transaction * 4

/-- The last push of a push-only script; an opcode above `OP_16` or a truncated push gives none. -/
def lastPush (script : List UInt8) : Option (List UInt8) :=
  (instructions script).foldlM (fun (_ : List UInt8) instruction =>
    match instruction with
    | none => none
    | some (.pushBytes bytes) => some bytes
    | some (.op opcode) => if opcode ≤ 0x60 then some [] else none) []

def p2shSigops (scriptSig : List UInt8) : Nat :=
  match lastPush scriptSig with
  | none => 0
  | some redeem => countScriptSigops redeem true

def witnessProgramSigops (program : List UInt8) (witness : List (List UInt8)) : Nat :=
  if witnessVersion program ≠ some 0 then 0
  else if program[1]? = some 20 then 1
  else if program[1]? = some 32 then
    match witness.getLast? with
    | none => 0
    | some script => countScriptSigops script true
  else 0

def witnessSigops (scriptSig scriptPubkey : List UInt8) (witness : List (List UInt8)) : Nat :=
  if isWitnessProgram scriptPubkey then witnessProgramSigops scriptPubkey witness
  else if isP2sh scriptPubkey && isPushOnly scriptSig then
    match lastPush scriptSig with
    | none => 0
    | some redeem => if isWitnessProgram redeem then witnessProgramSigops redeem witness else 0
  else 0

/-- The flag `VERIFY_P2SH` is bit 0, `VERIFY_WITNESS` bit 11. -/
def inputSigopCost (flags : Nat) (input : TxIn) (prevout : Utxo) : Nat :=
  (if flags.testBit 0 && isP2sh prevout.scriptPubkey then p2shSigops input.scriptSig * 4
    else 0) + if flags.testBit 11 then witnessSigops input.scriptSig prevout.scriptPubkey input.witness else 0

def transactionSigopCost (prevouts : List Utxo) (flags : Nat) : Nat :=
  legacySigopCost transaction +
    ((transaction.input.zip prevouts).map fun entry => inputSigopCost flags entry.1 entry.2).sum

def lockTimeIsBlockHeight (lockTime : Nat) : Bool := decide (lockTime < 500_000_000)

def transactionIsFinal (height lockTimeContext : Nat) : Bool :=
  let comparison := if lockTimeIsBlockHeight transaction.lockTime then height else lockTimeContext
  decide (transaction.lockTime = 0 ∨ transaction.lockTime < comparison ∨
    ∀ input ∈ transaction.input, input.sequence = 2 ^ 32 - 1)

/-- The signed version is compared as an unsigned number. -/
def enforcesBip68 : Bool := decide (2 ≤ transaction.version % 2 ^ 32)

def checkSequenceLock (sequence : Nat) (outpoint : OutPointKey) (utxo : Utxo)
    (height parentMtp : Nat) : Except ChainstateError Unit :=
  if sequence.testBit 31 then return ()
  else
    let relative := sequence % 2 ^ 16
    if !sequence.testBit 22 then
      let minimumHeight := saturatingAdd 32 utxo.height relative - 1
      ensure (minimumHeight < height) (.relativeHeightLock outpoint minimumHeight)
    else
      let minimumMtp := saturatingAdd 32 utxo.creationMtp (relative * 2 ^ 9) - 1
      ensure (minimumMtp < parentMtp) (.relativeTimeLock outpoint minimumMtp)

/-- Outputs that can never be spent are not stored. -/
def isUnspendable (script : List UInt8) : Bool :=
  isOpReturn script || decide (maxScriptSize < script.length)

def createdOutputs (txid : Txid) (height now creationMtp : Nat)
    (isCoinbase : Bool) : List CoinEntry :=
  (transaction.output.zipIdx.filter fun entry => !isUnspendable entry.1.scriptPubkey).map
    fun entry => (⟨txid, entry.2⟩,
      { valueSats := entry.1.value
        height
        isCoinbase
        lastTouched := now
        creationMtp
        scriptPubkey := entry.1.scriptPubkey })

structure TransactionContext where
  height : Nat
  now : Nat
  creationMtp : Nat
  lockTimeContext : Nat
  scriptFlags : Nat
  csvActive : Bool
  deriving DecidableEq, Repr

variable (crate : ChainCrate) (context : TransactionContext) (transaction : Transaction)

def addOutputValue (sum : Nat) (output : TxOut) : Except ChainstateError Nat := do
  ensure (output.value ≤ maxMoneySats) .moneyRange
  require (checkedAdd 64 sum output.value) .valueOverflow

def checkInput (uniqueInputs : Finset OutPointKey) (input : TxIn) :
    Except ChainstateError (Finset OutPointKey) := do
  ensure (input.previousOutput ≠ .null) .nullPrevout
  ensure (input.previousOutput ∉ uniqueInputs) (.duplicateInput input.previousOutput)
  return insert input.previousOutput uniqueInputs

structure Resolved where
  spent : List OutPointKey
  prevouts : List Utxo
  inputValue : Nat

def resolveInput (resolved : Resolved) (input : TxIn) (found : Option Utxo) :
    Except ChainstateError Resolved := do
  let outpoint := input.previousOutput
  let utxo ← require found (.utxo (.missing outpoint))
  ensure (utxo.valueSats ≤ maxMoneySats) .moneyRange
  let maturesAt := saturatingAdd 32 utxo.height coinbaseMaturity
  ensure (¬ (utxo.isCoinbase = true ∧ context.height < maturesAt)) (.immatureCoinbase outpoint maturesAt)
  if context.csvActive && enforcesBip68 transaction then
    checkSequenceLock input.sequence outpoint utxo context.height context.creationMtp
  let inputValue ← require (checkedAdd 64 resolved.inputValue utxo.valueSats) .valueOverflow
  ensure (inputValue ≤ maxMoneySats) .moneyRange
  return { spent := resolved.spent ++ [outpoint]
           prevouts := resolved.prevouts ++ [utxo]
           inputValue }

abbrev CoinReads (α : Type) := ExceptT ChainstateError (Query OutPointKey (Option Utxo)) α

def resolveInputs : Resolved → List TxIn → CoinReads Resolved
  | resolved, [] => pure resolved
  | resolved, input :: rest => do
      let found ← liftM (Query.read input.previousOutput : Query OutPointKey (Option Utxo) (Option Utxo))
      let next ← liftM (resolveInput context transaction resolved input found)
      resolveInputs next rest

def prepareCoinbase (txid : Txid) (outputValue : Nat) : Except ChainstateError PreparedTransaction := do
  let scriptLen := (transaction.input.map fun input => input.scriptSig.length).headD 0
  ensure (2 ≤ scriptLen ∧ scriptLen ≤ 100) .coinbaseScriptSize
  return { validated :=
             { txid
               inputValueSats := 0
               outputValueSats := outputValue
               sigopCost := legacySigopCost transaction }
           spent := []
           created := createdOutputs transaction txid context.height context.now context.creationMtp true
           prevouts := [] }

def checkOutputs : Except ChainstateError Nat := do
  ensure (transaction.baseSize * 4 ≤ 4_000_000) .oversize
  ensure (transactionIsFinal transaction context.height context.lockTimeContext = true)
    (.nonFinalLockTime transaction.lockTime
      (if lockTimeIsBlockHeight transaction.lockTime then context.height else context.lockTimeContext))
  let outputValue ← foldOutcome addOutputValue 0 transaction.output
  ensure (outputValue ≤ maxMoneySats) .moneyRange
  ensure (transaction.output ≠ []) .noOutputs
  return outputValue

def prepareTransactionWithContext (precomputedTxid : Option Txid) (verifyScripts : Bool) :
    CoinReads PreparedTransaction := do
  let outputValue ← liftM (checkOutputs context transaction)
  let txid := precomputedTxid.getD (crate.computeTxid transaction)
  if transaction.isCoinbase then
    liftM (prepareCoinbase context transaction txid outputValue)
  else
    liftM (ensure (transaction.input ≠ []) ChainstateError.noInputs)
    let _ ← liftM (foldOutcome checkInput ∅ transaction.input)
    let resolved ← resolveInputs context transaction ⟨[], [], 0⟩ transaction.input
    liftM (ensure (outputValue ≤ resolved.inputValue) ChainstateError.inflation)
    if verifyScripts then
      liftM ((verifyTransactionScriptsWithFlags crate transaction resolved.prevouts
        context.scriptFlags).mapError ChainstateError.script)
    return { validated :=
               { txid
                 inputValueSats := resolved.inputValue
                 outputValueSats := outputValue
                 sigopCost := transactionSigopCost transaction resolved.prevouts context.scriptFlags }
             spent := resolved.spent
             created := createdOutputs transaction txid context.height context.now context.creationMtp false
             prevouts := resolved.prevouts }

end

def maxBlockWeight : Nat := 4_000_000

def maxBlockSigopsCost : Nat := 80_000

def initialSubsidySats : Nat := 50 * 100_000_000

/-- A halving interval; the source asserts that it is not zero. -/
abbrev HalvingInterval := { interval : Nat // interval ≠ 0 }

def blockSubsidyWithInterval (height : Nat) (halvingInterval : HalvingInterval) : Nat :=
  let halvings := height / halvingInterval.val
  if 64 ≤ halvings then 0 else initialSubsidySats >>> halvings

inductive BlockError where
  | empty
  | missingCoinbase
  | multipleCoinbase
  | merkleRoot
  | mutatedMerkleTree
  | witnessCommitment
  | unexpectedWitness
  | signet
  | bip34Height (height : Nat)
  | weight (weight : Nat)
  | excessCoinbase (claimed allowed : Nat)
  | feeOutOfRange (fees : Nat)
  | feeOverflow
  | sigopCost (cost : Nat)
  | sigopOverflow
  | transaction (index : Nat) (source : ChainstateError)
  | rollback (error : UtxoError)
  deriving DecidableEq, Repr

@[ext] structure AppliedBlock where
  hash : BlockHash
  transactionUndos : List UtxoUndo
  deriving DecidableEq, Repr

structure DeferredScriptCheck where
  index : Nat
  blockOrder : Nat
  transaction : Transaction
  prevouts : List Utxo
  scriptFlags : Nat
  deriving DecidableEq, Repr

section
variable (crate : ChainCrate)

/-- One level of the Merkle tree: the parents, and whether a pair of equal hashes was joined. -/
def merkleLevel : List Nat → List Nat × Bool
  | left :: right :: rest =>
    let (parents, mutated) := merkleLevel rest
    (crate.hashPair left right :: parents, decide (left = right) || mutated)
  | [left] => ([crate.hashPair left left], false)
  | [] => ([], false)

def merkleLevels : Nat → List Nat → Bool → Option Nat × Bool
  | _, [], mutated => (none, mutated)
  | _, [root], mutated => (some root, mutated)
  | 0, _, mutated => (none, mutated)
  | rounds + 1, hashes, mutated =>
    let (parents, joined) := merkleLevel crate hashes
    merkleLevels rounds parents (mutated || joined)

def transactionMerkleRoot (transactionIds : List Txid) : Option TxMerkleNode × Bool :=
  let (root, mutated) := merkleLevels crate transactionIds.length (transactionIds.map Txid.value) false
  (root.map TxMerkleNode.mk, mutated)

def scriptNumBytes : Nat → Nat → List UInt8
  | 0, _ => []
  | rounds + 1, value =>
    if value = 0 then [] else UInt8.ofNat value :: scriptNumBytes rounds (value / 256)

def encodeScriptNum (value : Nat) : List UInt8 :=
  let encoded := scriptNumBytes 4 value
  match encoded.getLast? with
  | some byte => if 0x80 ≤ byte then encoded ++ [0] else encoded
  | none => encoded

def encodeScriptNumPush (height : Nat) : List UInt8 :=
  if height = 0 then [0x00]
  else if height ≤ 16 then [0x50 + UInt8.ofNat height]
  else UInt8.ofNat (encodeScriptNum height).length :: encodeScriptNum height

def coinbaseHasHeight (transaction : Transaction) (height : Nat) : Bool :=
  match transaction.input with
  | [] => false
  | input :: _ => (encodeScriptNumPush height).isPrefixOf input.scriptSig

def witnessMagic : List UInt8 := [0x6a, 0x24, 0xaa, 0x21, 0xa9, 0xed]

def checkWitnessCommitment (block : Block) (segwitActive : Bool) : Except BlockError Unit :=
  let coinbase := block.txdata.headD ⟨0, 0, [], []⟩
  let hasCommitment := coinbase.output.any fun output =>
    decide (38 ≤ output.scriptPubkey.length ∧ output.scriptPubkey.take 6 = witnessMagic)
  let hasWitness := block.txdata.any fun transaction =>
    transaction.input.any fun input => !input.witness.isEmpty
  if segwitActive && hasCommitment then
    let reserved := (coinbase.input.map TxIn.witness).headD []
    ensure (reserved.map List.length = [32] ∧ crate.checkWitnessCommitment block = true) .witnessCommitment
  else ensure (hasWitness = false) .unexpectedWitness

/-- Script, SegWit and Signet gates are separate; the transaction ids are returned. -/
def validateBlockStructureWithDeploymentsAndTxids (block : Block) (height : Nat)
    (bip34Active segwitActive : Bool) (signetChallenge : Option (List UInt8)) :
    Except BlockError (List Txid) := do
  match signetChallenge with
  | some challenge =>
    ensure (crate.blockHash block.header = crate.blockHash (crate.genesisHeader .signet) ∨
      crate.signetSolution block challenge = true) .signet
  | none => pure ()
  ensure (block.txdata ≠ []) .empty
  ensure (∃ coinbase ∈ block.txdata.head?, coinbase.isCoinbase = true) .missingCoinbase
  ensure (bip34Active = false ∨ ∃ coinbase ∈ block.txdata.head?,
    coinbaseHasHeight coinbase height = true) (.bip34Height height)
  ensure (∀ transaction ∈ block.txdata.tail, transaction.isCoinbase = false) .multipleCoinbase
  let transactionIds := block.txdata.map crate.computeTxid
  let (merkleRoot, mutated) := transactionMerkleRoot crate transactionIds
  ensure (merkleRoot = some block.header.merkleRoot) .merkleRoot
  ensure (mutated = false) .mutatedMerkleTree
  checkWitnessCommitment crate block segwitActive
  ensure (block.weight ≤ maxBlockWeight) (.weight block.weight)
  return transactionIds

end

section
variable (crate : ChainCrate)

def DeferredScriptCheck.failure (check : DeferredScriptCheck) : Option ConsensusError :=
  match verifyTransactionScriptsWithFlags crate check.transaction check.prevouts check.scriptFlags with
  | .ok _ => none
  | .error error => some error

/-- The first failing check of one block, by transaction index, as the pool reports it. -/
def verifyDeferredScripts (checks : List DeferredScriptCheck) : Option (Nat × ConsensusError) :=
  checks.findSome? fun check => (check.failure crate).map (check.index, ·)

end

/-- The part of the `UtxoStore` trait block application uses, over the states of a store. Reads may
fill a cache. -/
structure UtxoStore (τ : Type) where
  get : Query.Reader τ OutPointKey (Option Utxo)
  applyWithUndoFreshOutputsFromPrevouts : τ → List OutPointKey → List Utxo →
    List CoinEntry → Except UtxoError (UtxoUndo × τ)
  undo : τ → UtxoUndo → Except UtxoError τ

structure AppliedTransaction where
  txid : Txid
  inputValueSats : Nat
  outputValueSats : Nat
  sigopCost : Nat
  undo : UtxoUndo
  deriving DecidableEq, Repr

structure BlockContext where
  height : Nat
  now : Nat
  creationMtp : Nat
  scriptFlags : Nat
  csvActive : Bool
  subsidySats : Nat
  deriving DecidableEq, Repr

def BlockContext.transaction (context : BlockContext) (block : Block) : TransactionContext :=
  { height := context.height
    now := context.now
    creationMtp := context.creationMtp
    lockTimeContext := if context.csvActive then context.creationMtp else block.header.time
    scriptFlags := context.scriptFlags
    csvActive := context.csvActive }

structure Totals where
  fees : Nat
  sigopCost : Nat
  deriving DecidableEq, Repr

/-- Adds one transaction to the totals. A negative fee was rejected before: an `expect`. -/
def chargeTransaction (totals : Totals) (index inputValue outputValue sigopCost : Nat) :
    Outcome BlockError Totals := do
  let fees ← if index = 0 then pure totals.fees else do
    ensure (outputValue ≤ inputValue) .panicked
    let nextFees ← require (checkedAdd 64 totals.fees (inputValue - outputValue))
      (.refused .feeOverflow)
    ensure (nextFees ≤ maxMoneySats) (.refused (.feeOutOfRange nextFees))
    pure nextFees
  let nextSigopCost ← require (checkedAdd 64 totals.sigopCost sigopCost) (.refused .sigopOverflow)
  ensure (nextSigopCost ≤ maxBlockSigopsCost) (.refused (.sigopCost nextSigopCost))
  return ⟨fees, nextSigopCost⟩

def checkCoinbaseClaim (subsidySats fees claimed : Nat) : Except BlockError Unit := do
  let allowed ← require (checkedAdd 64 subsidySats fees) .feeOverflow
  ensure (claimed ≤ allowed) (.excessCoinbase claimed allowed)

variable {τ : Type} (crate : ChainCrate) (store : UtxoStore τ)

def applyTransactionWithDeferredScripts (context : TransactionContext) (transaction : Transaction)
    (txid : Txid) (state : τ) : τ × Except ChainstateError (AppliedTransaction × List Utxo) :=
  let (result, read) := (prepareTransactionWithContext crate context transaction (some txid)
    false).run.runOn store.get state
  match result with
  | .error error => (read, .error error)
  | .ok prepared =>
    match store.applyWithUndoFreshOutputsFromPrevouts read prepared.spent prepared.prevouts
        prepared.created with
    | .error error => (read, .error (.utxo error))
    | .ok (undo, next) => (next, .ok (
        { txid := prepared.validated.txid
          inputValueSats := prepared.validated.inputValueSats
          outputValueSats := prepared.validated.outputValueSats
          sigopCost := prepared.validated.sigopCost
          undo }, prepared.prevouts))

def undoAll : List UtxoUndo → τ → τ × Except UtxoError Unit
  | [], state => (state, .ok ())
  | undo :: rest, state =>
    match store.undo state undo with
    | .error error => (state, .error error)
    | .ok next => undoAll rest next

def rollback {α : Type} (applied : List AppliedTransaction) (state : τ) (error : BlockError) :
    τ × Outcome BlockError α :=
  match undoAll store (applied.reverse.map AppliedTransaction.undo) state with
  | (next, .ok _) => (next, .error (.refused error))
  | (next, .error cause) => (next, .error (.refused (.rollback cause)))

/-- An earlier script failure outranks the error at hand. -/
def outranked (checks : List DeferredScriptCheck) (error : BlockError) : BlockError :=
  match verifyDeferredScripts crate checks with
  | some (index, source) => .transaction index (.script source)
  | none => error

structure Applying where
  applied : List AppliedTransaction
  scriptChecks : List DeferredScriptCheck
  totals : Totals

def scriptChecksWith (checks : List DeferredScriptCheck) (index : Nat) (transaction : Transaction)
    (prevouts : List Utxo) (scriptFlags : Nat) : List DeferredScriptCheck :=
  if index = 0 then checks else checks ++ [⟨index, 0, transaction, prevouts, scriptFlags⟩]

def applyRound (context : BlockContext) (block : Block) (index : Nat) (transaction : Transaction)
    (txid : Txid) (applying : Applying) (state : τ) : τ × Outcome BlockError Applying :=
  match applyTransactionWithDeferredScripts crate store (context.transaction block) transaction txid
      state with
  | (next, .error source) =>
    rollback store applying.applied next (outranked crate applying.scriptChecks (.transaction index source))
  | (next, .ok (appliedTransaction, prevouts)) =>
    let applied := applying.applied ++ [appliedTransaction]
    match chargeTransaction applying.totals index appliedTransaction.inputValueSats
        appliedTransaction.outputValueSats appliedTransaction.sigopCost with
    | .error .panicked => (next, .error .panicked)
    | .error (.refused error) => rollback store applied next error
    | .ok totals => (next, .ok
        { applied
          scriptChecks := scriptChecksWith applying.scriptChecks index transaction prevouts context.scriptFlags
          totals })

def applyRounds (context : BlockContext) (block : Block) :
    Nat → List (Transaction × Txid) → Applying → τ → τ × Outcome BlockError Applying
  | _, [], applying, state => (state, .ok applying)
  | index, (transaction, txid) :: rest, applying, state =>
    match applyRound crate store context block index transaction txid applying state with
    | (next, .error fault) => (next, .error fault)
    | (next, .ok following) => applyRounds context block (index + 1) rest following next

def applyPrevalidatedBlockWithDeploymentsInner (block : Block) (transactionIds : Option (List Txid))
    (context : BlockContext) (deferScripts : Bool) (state : τ) :
    τ × Outcome BlockError (AppliedBlock × List DeferredScriptCheck) :=
  let ids := transactionIds.getD (block.txdata.map crate.computeTxid)
  match applyRounds crate store context block 0 (block.txdata.zip ids) ⟨[], [], ⟨0, 0⟩⟩ state with
  | (next, .error fault) => (next, .error fault)
  | (next, .ok applying) =>
    match (if deferScripts then none else verifyDeferredScripts crate applying.scriptChecks) with
    | some (index, source) =>
      rollback store applying.applied next (.transaction index (.script source))
    | none =>
      match applying.applied with
      | [] => (next, .error .panicked)
      | coinbase :: _ =>
        match checkCoinbaseClaim context.subsidySats applying.totals.fees
            coinbase.outputValueSats with
        | .error error =>
          rollback store applying.applied next
            (if deferScripts then outranked crate applying.scriptChecks error else error)
        | .ok _ => (next, .ok (⟨crate.blockHash block.header, applying.applied.map AppliedTransaction.undo⟩,
              applying.scriptChecks))

def applyBlockWithDeployments (block : Block) (context : BlockContext) (bip34Active segwitActive : Bool)
    (signetChallenge : Option (List UInt8)) (state : τ) : τ × Outcome BlockError AppliedBlock :=
  match validateBlockStructureWithDeploymentsAndTxids crate block context.height bip34Active segwitActive
      signetChallenge with
  | .error error => (state, .error (.refused error))
  | .ok _ =>
    let (next, result) := applyPrevalidatedBlockWithDeploymentsInner crate store block none context false state
    (next, result.map Prod.fst)

def disconnectBlock (applied : AppliedBlock) (state : τ) : τ × Except UtxoError Unit :=
  undoAll store applied.transactionUndos.reverse state

end Rbtc.Chainstate
