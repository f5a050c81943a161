import Rbtc.Foundation.Words

/-! The `VARINT` integers of a Core snapshot file (`core_snapshot.rs`). -/

namespace Rbtc.SnapshotOverlay

open Foundation

inductive CoreSnapshotError where
  | io
  | invalid (reason : String)
  deriving DecidableEq, Repr

/-- The shift by seven refuses no 64-bit value: bits shifted out are lost. -/
def readVarintFrom : Nat → List UInt8 → Outcome CoreSnapshotError (Nat × List UInt8)
  | _, [] => refuse .io
  | value, byte :: rest => do
      let next ← checked (.invalid "VARINT overflow") (value * 128 % 2 ^ 64 + byte.toNat % 128)
      if byte.toNat < 128 then return (next, rest)
      else do
        let carried ← checked (.invalid "VARINT overflow") (next + 1)
        readVarintFrom carried rest

def readCoreVarint (bytes : List UInt8) : Outcome CoreSnapshotError (Nat × List UInt8) :=
  readVarintFrom 0 bytes

def writeCoreVarint (value : Nat) : Outcome CoreSnapshotError (List UInt8) := encodeVlq value

variable {value : Nat} {bytes rest : List UInt8}

/-- A reader that checks the shift as well is followed wherever it succeeds. -/
theorem readVarintFrom_of_readVlq {start : Nat} {error : CoreSnapshotError} {consumed : List UInt8}
    (read : readVlq error start bytes = .ok (value, consumed, rest)) :
    readVarintFrom start bytes = .ok (value, rest) := by
  induction bytes generalizing start consumed with
  | nil => cases read
  | cons _ _ ih =>
    simp only [readVlq, bind_eq_ok, checked_eq_ok] at read
    obtain ⟨_, ⟨scaled, rfl⟩, _, ⟨fits, rfl⟩, read⟩ := read
    rw [readVarintFrom, Nat.mod_eq_of_lt scaled, checked_of fits, ok_bind]
    split at read
    · next last =>
      cases read
      rw [if_pos last]
      rfl
    rename_i marked
    simp only [bind_eq_ok, checked_eq_ok] at read
    obtain ⟨_, ⟨carried, rfl⟩, ⟨_, _, _⟩, isRead, same⟩ := read
    cases same
    rw [if_neg marked, checked_of carried]
    exact ih isRead

/-- The reader spells out one number, and keeps its low 64 bits. -/
theorem readVarintFrom_spells {carry : Nat} {digits : List UInt8}
    (spells : ∀ continued low, vlq continued (carry * 128 + low % 128) = digits ++ [vlqByte continued low])
    (read : readVarintFrom (carry % 2 ^ 64) bytes = .ok (value, rest)) :
    ∃ number, digits ++ bytes = vlq false number ++ rest ∧ value = number % 2 ^ 64 := by
  induction bytes generalizing carry digits with
  | nil => cases read
  | cons byte _ ih =>
    simp only [readVarintFrom, bind_eq_ok, checked_eq_ok] at read
    obtain ⟨next, ⟨-, _⟩, read⟩ := read
    have kept : next = (carry * 128 + byte.toNat % 128) % 2 ^ 64 := by omega
    split at read
    · next last =>
      cases read
      refine ⟨_, ?_, kept⟩
      rw [spells, vlqByte_of_lt last, List.append_assoc]
      rfl
    rename_i marked
    simp only [bind_eq_ok, checked_eq_ok] at read
    obtain ⟨_, ⟨_, rfl⟩, read⟩ := read
    have isCarry : next + 1 = (carry * 128 + byte.toNat % 128 + 1) % 2 ^ 64 := by omega
    rw [isCarry] at read
    have longer := ih (fun continued low => vlq_succ continued _ low) read
    rwa [spells, vlqByte_of_ge (Nat.not_lt.mp marked), List.append_assoc] at longer

/-- Every 64-bit value is read back from its encoding. What is read spells some number, whose
low 64 bits are returned; it is the encoding of the value returned exactly when that number has 64 bits. -/
theorem core_varint_inverse (value : Nat) (bytes rest : List UInt8) :
    (value < 2 ^ 64 → ∃ encoded, writeCoreVarint value = .ok encoded ∧
      readCoreVarint (encoded ++ rest) = .ok (value, rest)) ∧
    (readCoreVarint bytes = .ok (value, rest) → ∃ number, bytes = vlq false number ++ rest ∧
      value = number % 2 ^ 64 ∧ (number < 2 ^ 64 ↔
        ∃ encoded, writeCoreVarint value = .ok encoded ∧ bytes = encoded ++ rest)) := by
  constructor
  · intro fits
    exact ⟨_, encodeVlq_eq fits, readVarintFrom_of_readVlq (@readVlq_vlq _ .io _ fits rest)⟩
  intro read
  have spells : ∀ continued low, vlq continued (0 * 128 + low % 128) = [] ++ [vlqByte continued low] := by
    intro continued low
    rw [Nat.zero_add, vlq, if_pos (by omega), vlqByte_mod]
    rfl
  obtain ⟨number, isNumber, isValue⟩ := readVarintFrom_spells spells read
  have small : value < 2 ^ 64 := isValue ▸ Nat.mod_lt _ (by decide)
  refine ⟨number, isNumber, isValue, fun fits => ?_, ?_⟩
  · rw [Nat.mod_eq_of_lt fits] at isValue
    exact ⟨_, encodeVlq_eq small, isValue ▸ isNumber⟩
  · rintro ⟨encoded, isEncoded, isRead⟩
    cases (encodeVlq_eq small).symm.trans isEncoded
    have same : number = value := vlq_inj (List.append_cancel_right (isNumber.symm.trans isRead))
    exact same ▸ small

/-- The encoding of `2 ^ 64` is read as zero. -/
theorem core_varint_wraps : readCoreVarint [128, 254, 254, 254, 254, 254, 254, 254, 255, 0] = .ok (0, []) ∧
    writeCoreVarint 0 = .ok [0] := by
  decide

end Rbtc.SnapshotOverlay
