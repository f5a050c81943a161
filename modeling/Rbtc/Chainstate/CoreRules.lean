import Rbtc.Chainstate.MerkleTree
import Mathlib.Tactic.IntervalCases

/-! Consensus checks against Bitcoin Core's own computations: signature operations, lock times, and the
height a coinbase commits to. -/

namespace Rbtc.Chainstate

open Bitcoin Script

/-- Core's `GetOp`: the opcode and the bytes behind its data; nothing for a truncated push. -/
def getOp : List UInt8 → Option (UInt8 × List UInt8)
  | [] => none
  | opcode :: rest => do
    if 0x4e < opcode then return (opcode, rest)
    let (size, data) ←
      if opcode < 0x4c then some (opcode.toNat, rest) else readLength (2 ^ (opcode.toNat - 0x4c)) rest
    if data.length < size then none else return (opcode, data.drop size)

/-- The loop of Core's `GetSigOpCount`; every round takes a byte at least. -/
def getSigOpCountFrom (accurate : Bool) : Nat → UInt8 → List UInt8 → Nat
  | 0, _, _ => 0
  | rounds + 1, lastOpcode, script =>
    match getOp script with
    | none => 0
    | some (opcode, rest) =>
      (if opcode = 0xac ∨ opcode = 0xad then 1
      else if opcode = 0xae ∨ opcode = 0xaf then
        if accurate = true ∧ 0x51 ≤ lastOpcode ∧ lastOpcode ≤ 0x60 then lastOpcode.toNat - 0x50 else 20
      else 0) + getSigOpCountFrom accurate rounds opcode rest

/-- The last opcode starts as `OP_INVALIDOPCODE`. -/
def getSigOpCount (script : List UInt8) (accurate : Bool) : Nat :=
  getSigOpCountFrom accurate script.length 0xff script

section
variable {byte : UInt8} {rest : List UInt8}

theorem getOp_cons : getOp (byte :: rest) = match pushOperand byte rest with
    | none => some (byte, rest)
    | some none => none
    | some (some (length, data)) => if length ≤ data.length then some (byte, data.drop length) else none := by
  rw [getOp, pushOperand]
  by_cases isOp : 0x4e < byte
  · have notDirect : ¬ byte < 0x4c := by grind
    have notData : byte ≠ 0x4c ∧ byte ≠ 0x4d ∧ byte ≠ 0x4e := by grind
    simp [isOp, notDirect, notData]
  by_cases direct : byte < 0x4c
  · simp only [isOp, direct, ← Nat.not_le, ite_not]
    rfl
  have isData : byte = 0x4c ∨ byte = 0x4d ∨ byte = 0x4e := by grind
  rcases isData with rfl | rfl | rfl
  all_goals
    simp only [← Nat.not_le, ite_not]
    generalize isOperand : readLength _ rest = operand
    cases operand with
    | none => simp_all
    | some operand => simp_all

theorem le_of_pushOperand {operand : Option (Nat × List UInt8)}
    (isOperand : pushOperand byte rest = some operand) : byte ≤ 0x4e := by
  unfold pushOperand at isOperand
  grind

theorem countSigopsFrom_eq (accurate : Bool) (rounds : Nat) (lastOpcode : UInt8) (script : List UInt8) :
    countSigopsFrom accurate (decodePushnum lastOpcode) (instructionsFrom rounds script) =
      getSigOpCountFrom accurate rounds lastOpcode script := by
  induction rounds generalizing lastOpcode script with
  | zero => simp [instructionsFrom, countSigopsFrom, getSigOpCountFrom]
  | succ rounds ih =>
    cases script with
    | nil => simp [instructionsFrom, countSigopsFrom, getSigOpCountFrom, getOp]
    | cons byte rest =>
      rw [getSigOpCountFrom, getOp_cons, instructionsFrom]
      cases isOperand : pushOperand byte rest with
      | none =>
        rw [countSigopsFrom, ih]
        unfold opcodeSigops decodePushnum
        cases accurate <;> grind [maxPubkeysPerMultisig]
      | some operand =>
        have isPush := le_of_pushOperand isOperand
        have noCount : decodePushnum byte = none := if_neg (by grind)
        match operand with
        | none => simp [countSigopsFrom]
        | some (length, data) =>
          dsimp only
          split
          · dsimp only
            rw [countSigopsFrom, ← noCount, ih, if_neg (by grind), if_neg (by grind), Nat.zero_add]
          · simp [countSigopsFrom]

theorem readLength_append (width : Nat) (rest back : List UInt8) : readLength width rest = none ∨
    readLength width (rest ++ back) = (readLength width rest).map fun operand => (operand.1, operand.2 ++ back) := by
  unfold readLength
  split
  · next fits =>
    rw [if_pos (by rw [List.length_append]; omega), List.take_append_of_le_length fits,
      List.drop_append_of_le_length fits]
    exact .inr rfl
  · exact .inl rfl

/-- Bytes behind a script leave an operand that is not truncated as it is. -/
theorem pushOperand_append (byte : UInt8) (rest back : List UInt8) : pushOperand byte rest = some none ∨
    pushOperand byte (rest ++ back) =
      (pushOperand byte rest).map fun operand => operand.map fun operand => (operand.1, operand.2 ++ back) := by
  unfold pushOperand
  split_ifs
  all_goals simp [readLength_append]

theorem countSigopsFrom_mono (accurate : Bool) (back : List UInt8) (rounds : Nat) (previousPushnum : Option Nat)
    (front : List UInt8) : countSigopsFrom accurate previousPushnum (instructionsFrom rounds front) ≤
      countSigopsFrom accurate previousPushnum (instructionsFrom (rounds + back.length) (front ++ back)) := by
  induction rounds generalizing previousPushnum front with
  | zero => simp [instructionsFrom, countSigopsFrom]
  | succ rounds ih =>
    cases front with
    | nil => simp [instructionsFrom, countSigopsFrom]
    | cons byte rest =>
      rw [Nat.add_right_comm, List.cons_append, instructionsFrom, instructionsFrom]
      rcases pushOperand_append byte rest back with truncated | longer
      · simp [truncated, countSigopsFrom]
      rw [longer]
      match pushOperand byte rest with
      | none => exact Nat.add_le_add_left (ih _ rest) _
      | some none => simp [countSigopsFrom]
      | some (some (length, data)) =>
        dsimp only [Option.map_some]
        split
        · next fits =>
          rw [if_pos (by rw [List.length_append]; omega), List.drop_append_of_le_length fits]
          exact ih none _
        · simp [countSigopsFrom]

/-- Sigops are counted as Core does, and no prefix of a script has more than the script. -/
theorem sigops_counted_as_core (script : List UInt8) (accurate : Bool) :
    countScriptSigops script accurate = getSigOpCount script accurate ∧
      ∀ front, front <+: script → countScriptSigops front accurate ≤ countScriptSigops script accurate := by
  refine ⟨countSigopsFrom_eq accurate script.length 0xff script, ?_⟩
  rintro front ⟨back, rfl⟩
  have counted := countSigopsFrom_mono accurate back front.length none front
  rwa [← List.length_append] at counted

end

section
open Foundation List

variable (transaction : Transaction)

/-- Core's `IsFinalTx`. -/
def isFinalTx (blockHeight blockTime : Int) : Bool :=
  if transaction.lockTime = 0 then true
  else if transaction.lockTime < if (transaction.lockTime : Int) < 500_000_000 then blockHeight else blockTime then true
  else transaction.input.all fun input => input.sequence = 0xffffffff

/-- One round of Core's `CalculateSequenceLocks`: the last height and the last time that do not suffice. -/
def raiseLocks (locks : Int × Int) (entry : TxIn × Utxo) : Int × Int :=
  let relative : Nat := entry.1.sequence % 2 ^ 16
  if entry.1.sequence.testBit 31 then locks
  else if entry.1.sequence.testBit 22 then (locks.1, max locks.2 (entry.2.creationMtp + relative * 2 ^ 9 - 1))
  else (max locks.1 (entry.2.height + relative - 1), locks.2)

def calculateSequenceLocks (coins : List Utxo) (verifySequence : Bool) : Int × Int :=
  if verifySequence = true ∧ 2 ≤ transaction.version % 2 ^ 32 then
    (transaction.input.zip coins).foldl raiseLocks (-1, -1)
  else (-1, -1)

def EvaluateSequenceLocks (locks : Int × Int) (height parentMtp : Nat) : Prop := locks.1 < height ∧ locks.2 < parentMtp

theorem checkSequenceLock_mono {sequence height later before after : Nat} {outpoint : OutPointKey} {utxo : Utxo}
    (unlocked : checkSequenceLock sequence outpoint utxo height before = .ok ()) (higher : height ≤ later)
    (ordered : before ≤ after) : checkSequenceLock sequence outpoint utxo later after = .ok () := by
  unfold checkSequenceLock at unlocked ⊢
  split_ifs at unlocked ⊢ with disabled byTime
  · rfl
  · exact ensure_eq_ok.mpr ((ensure_eq_ok.mp unlocked).trans_le higher)
  · exact ensure_eq_ok.mpr ((ensure_eq_ok.mp unlocked).trans_le ordered)

structure LockRange (coin : Utxo) : Prop where
  height : coin.height < 2 ^ 32 - 2 ^ 16
  started : 1 ≤ coin.creationMtp
  time : coin.creationMtp ≤ 2 ^ 32 - 2 ^ 25

variable {height parentMtp : Nat}

theorem evaluate_raiseLocks {entry : TxIn × Utxo} (range : LockRange entry.2) (above : 1 ≤ height) (locks : Int × Int) :
    EvaluateSequenceLocks (raiseLocks locks entry) height parentMtp ↔ EvaluateSequenceLocks locks height parentMtp ∧
      checkSequenceLock entry.1.sequence entry.1.previousOutput entry.2 height parentMtp = .ok () := by
  obtain ⟨lower, started, early⟩ := range
  unfold EvaluateSequenceLocks raiseLocks checkSequenceLock saturatingAdd saturate
  cases entry.1.sequence.testBit 31 with
  | true => simp [pure_eq_ok]
  | false =>
    cases entry.1.sequence.testBit 22 with
    | true =>
      simp only [Bool.not_true, if_true, if_false, reduceCtorEq, ensure_eq_ok]
      omega
    | false =>
      simp only [Bool.not_false, if_true, if_false, reduceCtorEq, ensure_eq_ok]
      omega

theorem evaluate_foldl_raiseLocks {entries : List (TxIn × Utxo)} (range : ∀ entry ∈ entries, LockRange entry.2)
    (above : 1 ≤ height) (locks : Int × Int) : EvaluateSequenceLocks (entries.foldl raiseLocks locks) height parentMtp ↔
      EvaluateSequenceLocks locks height parentMtp ∧ ∀ entry ∈ entries,
        checkSequenceLock entry.1.sequence entry.1.previousOutput entry.2 height parentMtp = .ok () := by
  induction entries generalizing locks with
  | nil => simp
  | cons entry entries ih =>
    rw [forall_mem_cons] at range
    rw [foldl_cons, ih range.2, evaluate_raiseLocks range.1 above, forall_mem_cons, and_assoc]

/-- The checks of the inputs pass exactly when Core's maxima are below the block, the absolute lock time is
Core's, and a lock once open stays open. -/
theorem lock_times_as_core (coins : List Utxo) (context : TransactionContext) :
    (1 ≤ context.height → (∀ coin ∈ coins, LockRange coin) →
      ((∀ entry ∈ transaction.input.zip coins, context.csvActive = true → enforcesBip68 transaction = true →
        checkSequenceLock entry.1.sequence entry.1.previousOutput entry.2 context.height context.creationMtp = .ok ()) ↔
      EvaluateSequenceLocks (calculateSequenceLocks transaction coins context.csvActive) context.height
        context.creationMtp)) ∧ transactionIsFinal transaction context.height context.lockTimeContext =
      isFinalTx transaction context.height context.lockTimeContext ∧
    ∀ sequence outpoint coin later mtp, context.height ≤ later → context.creationMtp ≤ mtp →
      checkSequenceLock sequence outpoint coin context.height context.creationMtp = .ok () →
      checkSequenceLock sequence outpoint coin later mtp = .ok () := by
  refine ⟨fun above range => ?_, ?_, fun _ _ _ _ _ higher ordered unlocked =>
    checkSequenceLock_mono unlocked higher ordered⟩
  · have start : EvaluateSequenceLocks (-1, -1) context.height context.creationMtp := by
      unfold EvaluateSequenceLocks
      omega
    unfold calculateSequenceLocks enforcesBip68
    split_ifs with enforced
    · rw [evaluate_foldl_raiseLocks (fun entry member => range _ (of_mem_zip member).2) above]
      simp only [enforced, start, decide_true, true_and, forall_const]
    · simp only [start, iff_true]
      exact fun _ _ active version => absurd ⟨active, of_decide_eq_true version⟩ enforced
  · unfold transactionIsFinal isFinalTx lockTimeIsBlockHeight
    split_ifs <;> grind

end

/-- Spends a coin locked for ten blocks and one locked for 1024 seconds. -/
def lockedSpend : Transaction := ⟨2, 0, [⟨⟨⟨1⟩, 0⟩, [], 10, []⟩, ⟨⟨⟨2⟩, 0⟩, [], 2 ^ 22 + 2, []⟩], []⟩

def lockedCoins : List Utxo := [⟨50, 100, false, 0, 5_000, []⟩, ⟨50, 90, false, 0, 6_000, []⟩]

theorem lock_times_as_core_two_inputs :
    EvaluateSequenceLocks (calculateSequenceLocks lockedSpend lockedCoins true) 110 7_024 ∧
      ¬ EvaluateSequenceLocks (calculateSequenceLocks lockedSpend lockedCoins true) 110 7_023 := by
  have range : ∀ coin ∈ lockedCoins, LockRange coin := List.forall_mem_cons.mpr
    ⟨⟨by decide, by decide, by decide⟩, List.forall_mem_singleton.mpr ⟨by decide, by decide, by decide⟩⟩
  have checks mtp :=
    (lock_times_as_core lockedSpend lockedCoins ⟨110, 0, mtp, 0, 0, true⟩).1 (Nat.le_add_left ..) range
  exact ⟨(checks 7_024).mp (by decide), fun unlocked => absurd ((checks 7_023).mpr unlocked) (by decide)⟩

open Foundation List

def littleEndianValue (bytes : List UInt8) : Nat := bytes.foldr (fun byte value => byte.toNat + 256 * value) 0

/-- Core's `CScriptNum` of at most five bytes, minimally encoded: a last byte that holds nothing but the
sign is there because the byte before it needs its high bit. -/
def readScriptNum (bytes : List UInt8) : Option Int :=
  match bytes.reverse with
  | [] => some 0
  | last :: before =>
    if 5 < bytes.length ∨ last % 0x80 = 0 ∧ before.head?.all (· < 0x80) then none
    else if last < 0x80 then some (littleEndianValue bytes)
    else some (0x80 * 256 ^ before.length - littleEndianValue bytes)

/-- The number pushed at the start of a script, by `OP_1` to `OP_16` or directly, and what follows it. -/
def readScriptNumPush : List UInt8 → Option (Int × List UInt8)
  | [] => none
  | opcode :: rest =>
    if 0x51 ≤ opcode ∧ opcode ≤ 0x60 then some (opcode.toNat - 0x50, rest)
    else if opcode < 0x4c ∧ opcode.toNat ≤ rest.length then
      (readScriptNum (rest.take opcode.toNat)).map (·, rest.drop opcode.toNat)
    else none

variable {rounds value height other : Nat}

theorem scriptNumBytes_spec (fits : value < 256 ^ rounds) :
    (scriptNumBytes rounds value).length ≤ rounds ∧ littleEndianValue (scriptNumBytes rounds value) = value ∧
      ∀ byte ∈ (scriptNumBytes rounds value).getLast?, byte ≠ 0 := by
  induction rounds generalizing value with
  | zero => simp_all [scriptNumBytes, littleEndianValue]
  | succ rounds ih =>
    rw [scriptNumBytes]
    split
    · next zero => simp [zero, littleEndianValue]
    obtain ⟨short, same, highest⟩ := ih (Nat.div_lt_of_lt_mul (by rwa [pow_succ, mul_comm] at fits))
    refine ⟨Nat.succ_le_succ short, ?_, fun byte isLast => ?_⟩
    · rw [littleEndianValue, foldr_cons, ← littleEndianValue, same]
      exact Nat.mod_add_div value 256
    cases further : scriptNumBytes rounds (value / 256) with
    | nil =>
      rw [further] at same isLast
      rintro rfl
      have lowest : value % 256 = 0 := by simpa using congrArg UInt8.toNat (Option.some.inj isLast)
      have noMore : 0 = value / 256 := same
      omega
    | cons next rest =>
      rw [further, getLast?_cons_cons, ← further] at isLast
      exact highest byte isLast

theorem readScriptNum_encodeScriptNum (positive : value ≠ 0) (fits : value < 256 ^ 4) :
    (encodeScriptNum value).length ≤ 5 ∧ readScriptNum (encodeScriptNum value) = some ↑value := by
  obtain ⟨short, same, highest⟩ := scriptNumBytes_spec fits
  rw [encodeScriptNum]
  rcases eq_nil_or_concat' (scriptNumBytes 4 value) with nothing | ⟨front, last, isLast⟩
  · rw [nothing] at same
    exact absurd same.symm positive
  rw [isLast] at short same highest ⊢
  rw [getLast?_concat] at highest ⊢
  rw [length_append] at short
  dsimp only
  split
  · next high =>
    have sameValue : littleEndianValue (front ++ [last, 0]) = value := by
      simpa [littleEndianValue] using same
    rw [readScriptNum, reverse_concat]
    simp [sameValue, Nat.le_of_succ_le_succ short, high]
  rw [readScriptNum]
  grind

theorem readScriptNumPush_encodeScriptNumPush (fits : height < 2 ^ 32) (rest : List UInt8) :
    readScriptNumPush (encodeScriptNumPush height ++ rest) = some (↑height, rest) := by
  unfold encodeScriptNumPush
  split
  · next zero => simp [zero, readScriptNumPush, readScriptNum]
  rename_i positive
  split
  · have := Nat.pos_of_ne_zero positive
    interval_cases height <;> rfl
  obtain ⟨short, reads⟩ := readScriptNum_encodeScriptNum positive fits
  generalize encodeScriptNum height = encoded at short reads
  have width : (UInt8.ofNat encoded.length).toNat = encoded.length := by
    rw [UInt8.toNat_ofNat']
    omega
  rw [cons_append, readScriptNumPush, if_neg, if_pos, width, take_left, drop_left, reads]
  · rfl
  · simp [width, UInt8.lt_iff_toNat_lt]
    omega
  · rw [UInt8.le_iff_toNat_le, width]
    exact fun high => by have := high.1; simp at this; omega

theorem eq_of_encodeScriptNumPush_prefix {script : List UInt8} (fits : height < 2 ^ 32) (fits' : other < 2 ^ 32)
    (committed : encodeScriptNumPush height <+: script) (committed' : encodeScriptNumPush other <+: script) :
    height = other := by
  obtain ⟨rest, rfl⟩ := committed
  obtain ⟨rest', same⟩ := committed'
  have read := readScriptNumPush_encodeScriptNumPush fits rest
  rw [← same, readScriptNumPush_encodeScriptNumPush fits' rest'] at read
  simpa using (congrArg Prod.fst (Option.some.inj read)).symm

theorem eq_of_coinbaseHasHeight {transaction : Transaction} (fits : height < 2 ^ 32) (fits' : other < 2 ^ 32)
    (committed : coinbaseHasHeight transaction height = true)
    (committed' : coinbaseHasHeight transaction other = true) : height = other := by
  cases isInput : transaction.input with
  | nil => simp [coinbaseHasHeight, isInput] at committed
  | cons input _ =>
    simp only [coinbaseHasHeight, isInput, isPrefixOf_iff_prefix] at committed committed'
    exact eq_of_encodeScriptNumPush_prefix fits fits' committed committed'

variable {crate : ChainCrate} {block : Block} {bip34Active segwitActive : Bool} {challenge : Option (List UInt8)}
  {ids : List Txid}

theorem structure_of_accepted (accepted : validateBlockStructureWithDeploymentsAndTxids crate block height bip34Active
      segwitActive challenge = .ok ids) : block.txdata ≠ [] ∧
    (bip34Active = false ∨ ∃ coinbase ∈ block.txdata.head?, coinbaseHasHeight coinbase height = true) ∧
    ∀ transaction ∈ block.txdata.tail, transaction.isCoinbase = false := by
  unfold validateBlockStructureWithDeploymentsAndTxids at accepted
  cases challenge with
  | none =>
    simp only [bind_eq_ok, ensure_eq_ok] at accepted
    obtain ⟨_, nonempty, _, _, _, committed, _, onlyCoinbase, _⟩ := accepted
    exact ⟨nonempty, committed, onlyCoinbase⟩
  | some _ =>
    simp only [bind_eq_ok, ensure_eq_ok] at accepted
    obtain ⟨_, _, _, nonempty, _, _, _, committed, _, onlyCoinbase, _⟩ := accepted
    exact ⟨nonempty, committed, onlyCoinbase⟩

/-- The pushes of heights are prefix-free and read back, so a coinbase has one height, and blocks accepted
at different heights under BIP34 have different coinbases. -/
theorem coinbase_commits_to_one_height (crate : ChainCrate) : (∀ height < 2 ^ 32, ∀ rest,
      readScriptNumPush (encodeScriptNumPush height ++ rest) = some (↑height, rest)) ∧
    (∀ height < 2 ^ 32, ∀ other < 2 ^ 32, encodeScriptNumPush height <+: encodeScriptNumPush other → height = other) ∧
    (∀ transaction, ∀ height < 2 ^ 32, ∀ other < 2 ^ 32, coinbaseHasHeight transaction height = true →
      coinbaseHasHeight transaction other = true → height = other) ∧
    ∀ block block' segwitActive segwitActive' challenge challenge' ids ids',
      ∀ height < 2 ^ 32, ∀ other < 2 ^ 32, height ≠ other →
      validateBlockStructureWithDeploymentsAndTxids crate block height true segwitActive challenge = .ok ids →
      validateBlockStructureWithDeploymentsAndTxids crate block' other true segwitActive' challenge' = .ok ids' →
        block.txdata.head? ≠ block'.txdata.head? := by
  refine ⟨fun height fits => readScriptNumPush_encodeScriptNumPush fits, fun height fits other fits' shorter =>
    eq_of_encodeScriptNumPush_prefix fits fits' shorter (prefix_refl _),
    fun transaction height fits other => eq_of_coinbaseHasHeight fits, ?_⟩
  intro block block' _ _ _ _ _ _ height fits other fits' distinct accepted accepted' same
  obtain ⟨_, first, committed⟩ := (structure_of_accepted accepted).2.1.resolve_left nofun
  obtain ⟨_, first', committed'⟩ := (structure_of_accepted accepted').2.1.resolve_left nofun
  rw [← same] at first'
  obtain rfl := Option.mem_unique first first'
  exact distinct (eq_of_coinbaseHasHeight fits fits' committed committed')

def minedAt (height : Nat) : Block :=
  ⟨Headers.Fixture.header 0, [⟨1, 0, [⟨.null, encodeScriptNumPush height, 0, []⟩], []⟩]⟩

theorem coinbase_commits_to_one_height_of_widths : (minedAt 127).txdata.head? ≠ (minedAt 128).txdata.head? :=
  (coinbase_commits_to_one_height pairingCrate).2.2.2 _ _ false false none none [⟨0⟩] [⟨0⟩] 127 (by decide) 128
    (by decide) (by decide) (by decide) (by decide)

end Rbtc.Chainstate
