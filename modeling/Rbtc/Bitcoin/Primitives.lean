import Mathlib.Data.List.Basic
import Mathlib.Algebra.Order.Ring.Nat
import Mathlib.Data.Prod.Lex

/-! What rBTC takes from the `bitcoin` crate: block headers and their arithmetic, transactions and
blocks with their encoded sizes, and scripts as byte strings. -/

namespace Rbtc.Bitcoin

/-- A block hash as the number its display form writes, the one compared with a target. -/
@[ext] structure BlockHash where
  value : Nat
  deriving DecidableEq, Repr

@[ext] structure TxMerkleNode where
  value : Nat
  deriving DecidableEq, Repr

@[ext] structure Header where
  version : Int
  prevBlockhash : BlockHash
  merkleRoot : TxMerkleNode
  time : Nat
  bits : Nat
  nonce : Nat
  deriving DecidableEq, Repr

inductive Network where
  | bitcoin
  | testnet
  | testnet4
  | signet
  | regtest
  deriving DecidableEq, Repr

structure Params where
  network : Network
  powTargetTimespan : Nat
  powTargetSpacing : Nat
  maxAttainableTarget : Nat
  noPowRetargeting : Bool
  allowMinDifficultyBlocks : Bool
  deriving DecidableEq, Repr

def Params.difficultyAdjustmentInterval (params : Params) : Nat :=
  params.powTargetTimespan / params.powTargetSpacing

/-- The header functions of the `bitcoin` crate, left abstract. Targets and work are 256-bit values. -/
structure HeaderCrate where
  blockHash : Header → BlockHash
  target : Header → Nat
  toWork : Nat → Nat
  toCompactLossy : Nat → Nat
  fromNextWorkRequired : Nat → Nat → Params → Nat
  genesisHeader : Network → Header
  paramsNew : Network → Params

section
variable (left right : Nat)

def addWork : Nat := (left + right) % 2 ^ 256

theorem addWork_eq {left right : Nat} (bounded : left + right < 2 ^ 256) :
    addWork left right = left + right := Nat.mod_eq_of_lt bounded

end

@[ext] structure Txid where
  value : Nat
  deriving DecidableEq, Repr

/-- A fixed-width outpoint key, which holds the data of an `OutPoint`. -/
@[ext] structure OutPointKey where
  txid : Txid
  vout : Nat
  deriving DecidableEq, Repr

namespace OutPointKey

def littleEndian (vout : Nat) : Nat :=
  ((vout % 256 * 256 + vout / 256 % 256) * 256 + vout / 256 ^ 2 % 256) * 256 + vout / 256 ^ 3 % 256

/-- Keys are compared as byte strings. The last component only separates indices that four bytes
cannot hold. -/
def rank (key : OutPointKey) : Nat ×ₗ Nat ×ₗ Nat :=
  toLex (key.txid.value, toLex (littleEndian key.vout, key.vout))

theorem rank_injective : Function.Injective rank := by
  intro left right same
  simp only [rank, EmbeddingLike.apply_eq_iff_eq, Prod.mk.injEq] at same
  exact OutPointKey.ext (Txid.ext same.1) same.2.2

instance : LinearOrder OutPointKey :=
  { LinearOrder.lift' rank rank_injective with
    toDecidableEq := instDecidableEqOutPointKey
    compare_eq_compareOfLessAndEq := fun left right => by
      rw [(LinearOrder.lift' rank rank_injective).compare_eq_compareOfLessAndEq left right]
      congr }

def null : OutPointKey := ⟨⟨0⟩, 2 ^ 32 - 1⟩

end OutPointKey

structure TxIn where
  previousOutput : OutPointKey
  scriptSig : List UInt8
  sequence : Nat
  witness : List (List UInt8)
  deriving DecidableEq, Repr

structure TxOut where
  value : Nat
  scriptPubkey : List UInt8
  deriving DecidableEq, Repr

structure Transaction where
  version : Int
  lockTime : Nat
  input : List TxIn
  output : List TxOut
  deriving DecidableEq, Repr

structure Block where
  header : Header
  txdata : List Transaction
  deriving DecidableEq, Repr

/-- Bytes of a `CompactSize` number. -/
def compactSizeLen (count : Nat) : Nat :=
  if count < 0xFD then 1 else if count ≤ 0xFFFF then 3 else if count ≤ 0xFFFFFFFF then 5 else 9

def bytesLen (bytes : List UInt8) : Nat := compactSizeLen bytes.length + bytes.length

namespace TxIn

def baseSize (input : TxIn) : Nat := 36 + bytesLen input.scriptSig + 4

def witnessSize (input : TxIn) : Nat :=
  compactSizeLen input.witness.length + (input.witness.map bytesLen).sum

end TxIn

def TxOut.size (output : TxOut) : Nat := 8 + bytesLen output.scriptPubkey

namespace Transaction

variable (transaction : Transaction)

def isCoinbase : Bool :=
  match transaction.input with
  | [input] => decide (input.previousOutput = .null)
  | _ => false

def baseSize : Nat :=
  4 + compactSizeLen transaction.input.length + (transaction.input.map TxIn.baseSize).sum +
    compactSizeLen transaction.output.length + (transaction.output.map TxOut.size).sum + 4

def usesSegwitSerialization : Bool :=
  transaction.input.any (fun input => !input.witness.isEmpty) || transaction.input.isEmpty

def totalSize : Nat :=
  if transaction.usesSegwitSerialization then
    transaction.baseSize + 2 + (transaction.input.map TxIn.witnessSize).sum
  else transaction.baseSize

def weight : Nat := transaction.baseSize * 3 + transaction.totalSize

end Transaction

def Block.weight (block : Block) : Nat :=
  4 * (80 + compactSizeLen block.txdata.length) + (block.txdata.map Transaction.weight).sum

inductive Instruction where
  | pushBytes (bytes : List UInt8)
  | op (code : UInt8)
  deriving DecidableEq, Repr

namespace Script

/-- The little-endian length operand of `OP_PUSHDATA1`, `OP_PUSHDATA2` and `OP_PUSHDATA4`. -/
def readLength (width : Nat) (bytes : List UInt8) : Option (Nat × List UInt8) :=
  if width ≤ bytes.length then
    some ((bytes.take width).foldr (fun byte length => byte.toNat + 256 * length) 0, bytes.drop width)
  else none

/-- The length of a push and the bytes after its operand; `some none` for a truncated operand. -/
def pushOperand (byte : UInt8) (rest : List UInt8) : Option (Option (Nat × List UInt8)) :=
  if byte < 0x4c then some (some (byte.toNat, rest))
  else if byte = 0x4c then some (readLength 1 rest)
  else if byte = 0x4d then some (readLength 2 rest)
  else if byte = 0x4e then some (readLength 4 rest)
  else none

/-- The iterator `Script::instructions`; `none` is a truncated push, which ends it. -/
def instructionsFrom : Nat → List UInt8 → List (Option Instruction)
  | 0, _ | _ + 1, [] => []
  | rounds + 1, byte :: rest =>
    match pushOperand byte rest with
    | none => some (.op byte) :: instructionsFrom rounds rest
    | some none => [none]
    | some (some (length, data)) =>
      if length ≤ data.length then
        some (.pushBytes (data.take length)) :: instructionsFrom rounds (data.drop length)
      else [none]

variable (script : List UInt8)

def instructions : List (Option Instruction) :=
  instructionsFrom script.length script

def isOpReturn : Bool := decide (script.head? = some 0x6a)

def isP2sh : Bool :=
  decide (script.length = 23 ∧ script.take 2 = [0xa9, 0x14] ∧ script.getLast? = some 0x87)

def witnessVersion : Option Nat :=
  match script with
  | version :: push :: program =>
    if 4 ≤ script.length ∧ script.length ≤ 42 ∧ 2 ≤ push ∧ push ≤ 40 ∧ program.length = push.toNat then
      if version = 0 then some 0
      else if 0x51 ≤ version ∧ version ≤ 0x60 then some (version.toNat - 0x50)
      else none
    else none
  | _ => none

def isWitnessProgram : Bool := (witnessVersion script).isSome

def isPushOnly : Bool :=
  (instructions script).all fun
    | some (.pushBytes _) => true
    | some (.op code) => decide (code ≤ 0x60)
    | none => false

end Script

end Rbtc.Bitcoin
