import Rbtc.Foundation.Outcome
import Mathlib.Data.Nat.Log
import Mathlib.Tactic.Ring

/-! Words of a fixed width: saturating, checked and unchecked arithmetic, and numbers as bytes,
most significant first or in offset base 128, where each has one form. -/

namespace Rbtc.Foundation

section
variable (width left right : Nat)

def saturate (value : Nat) : Nat := min value (2 ^ width - 1)

/-- The nearest value of a signed word. -/
def saturateInt (value : Int) : Int := max (-2 ^ (width - 1)) (min value (2 ^ (width - 1) - 1))

def saturatingAdd : Nat := saturate width (left + right)

def saturatingMul : Nat := saturate width (left * right)

def checkedAdd : Option Nat := if left + right < 2 ^ width then some (left + right) else none

variable {width left right}

theorem checkedAdd_eq_some {sum : Nat} :
    checkedAdd width left right = some sum ↔ left + right < 2 ^ width ∧ left + right = sum := by
  unfold checkedAdd
  split
  · next fits => simp only [Option.some.injEq, fits, true_and]
  · next exceeds => simp only [reduceCtorEq, exceeds, false_and]

end

section
variable {ε : Type}

def checked (error : ε) (result : Nat) : Outcome ε Nat :=
  if result < 2 ^ 64 then .ok result else refuse error

def unchecked (result : Nat) : Outcome ε Nat :=
  if result < 2 ^ 64 then .ok result else .error .panicked

def uncheckedSub (left right : Nat) : Outcome ε Nat :=
  if right ≤ left then .ok (left - right) else .error .panicked

variable {result : Nat} {error : ε}

theorem checked_eq_ok {value : Nat} : checked error result = .ok value ↔ result < 2 ^ 64 ∧ result = value := by
  unfold checked
  split
  · next small =>
    rw [Except.ok.injEq]
    exact ⟨fun same => ⟨small, same⟩, fun both => both.2⟩
  · next large => exact ⟨fun refused => (by cases refused), fun both => absurd both.1 large⟩

theorem checked_of (small : result < 2 ^ 64) : checked error result = .ok result := if_pos small

theorem unchecked_of (small : result < 2 ^ 64) : (unchecked result : Outcome ε Nat) = .ok result := if_pos small

theorem uncheckedSub_of {left right : Nat} (fits : right ≤ left) :
    (uncheckedSub left right : Outcome ε Nat) = .ok (left - right) := if_pos fits

theorem safe_checked (error : ε) (result : Nat) : Safe (checked error result) := by
  unfold checked
  split
  · exact safe_ok _
  · exact nofun

end

def bigEndian : Nat → Nat → List Nat
  | 0, _ => []
  | width + 1, value => bigEndian width (value / 256) ++ [value % 256]

def ofBigEndian (bytes : List Nat) : Nat := bytes.foldl (fun value byte => 256 * value + byte) 0

def byteWidth (value : Nat) : Nat := max (((if value = 0 then 0 else Nat.log2 value + 1) + 7) / 8) 1

section
variable {value width : Nat}

@[simp] theorem length_bigEndian (width value : Nat) : (bigEndian width value).length = width := by
  induction width generalizing value with
  | zero => rfl
  | succ _ ih => simp [bigEndian, ih]

theorem ofBigEndian_bigEndian (fits : value < 256 ^ width) : ofBigEndian (bigEndian width value) = value := by
  induction width generalizing value with
  | zero =>
    rw [pow_zero, Nat.lt_one_iff] at fits
    exact fits.symm
  | succ width ih =>
    have smaller : value / 256 < 256 ^ width := Nat.div_lt_of_lt_mul (by rwa [pow_succ, mul_comm] at fits)
    have front : (bigEndian width (value / 256)).foldl (fun value byte => 256 * value + byte) 0 = value / 256 :=
      ih smaller
    rw [ofBigEndian, bigEndian, List.foldl_append, front]
    exact Nat.div_add_mod value 256

theorem bigEndian_succ (width value : Nat) :
    bigEndian (width + 1) value = value / 256 ^ width % 256 :: bigEndian width value := by
  induction width generalizing value with
  | zero => simp [bigEndian]
  | succ _ ih =>
    rw [bigEndian, ih, bigEndian, List.cons_append, Nat.div_div_eq_div_mul, pow_succ, mul_comm 256]

theorem pow_byte (bytes : Nat) : 256 ^ bytes = 2 ^ (8 * bytes) := (pow_mul 2 8 bytes).symm

theorem lt_pow_byteWidth (value : Nat) : value < 256 ^ byteWidth value := by
  rw [pow_byte]
  by_cases zero : value = 0
  · rw [zero]
    exact Nat.two_pow_pos _
  · calc value < 2 ^ (Nat.log2 value + 1) := Nat.lt_log2_self
      _ ≤ 2 ^ (8 * byteWidth value) := Nat.pow_le_pow_right (by decide) (by rw [byteWidth, if_neg zero]; omega)

theorem byteWidth_pos (value : Nat) : 0 < byteWidth value := by
  rw [byteWidth]
  omega

theorem byteWidth_le {bytes : Nat} (positive : 0 < bytes) (fits : value < 256 ^ bytes) : byteWidth value ≤ bytes := by
  rw [pow_byte] at fits
  rw [byteWidth]
  split
  · omega
  · next some =>
    have := (Nat.log2_lt some).mpr fits
    omega

theorem pow_le_of_byteWidth (isWidth : byteWidth value = width + 1) (several : 0 < width) : 256 ^ width ≤ value := by
  rw [pow_byte]
  rw [byteWidth] at isWidth
  split at isWidth
  · omega
  · next some =>
    exact (Nat.le_log2 some).mp (by omega)

end

open List

def vlqByte (continued : Bool) (value : Nat) : UInt8 :=
  UInt8.ofNat (value % 128 + if continued then 128 else 0)

/-- The form of a number; `continued` marks its last byte too. -/
def vlq (continued : Bool) (value : Nat) : List UInt8 :=
  if value ≤ 127 then [vlqByte continued value]
  else vlq true (value / 128 - 1) ++ [vlqByte continued value]
termination_by value
decreasing_by omega

theorem vlqByte_mod (continued : Bool) (value : Nat) : vlqByte continued (value % 128) = vlqByte continued value := by
  rw [vlqByte, Nat.mod_mod]
  rfl

theorem vlqByte_of_lt {byte : UInt8} (last : byte.toNat < 128) : vlqByte false byte.toNat = byte := by
  rw [vlqByte, Nat.mod_eq_of_lt last]
  exact UInt8.ofNat_toNat

theorem vlqByte_of_ge {byte : UInt8} (marked : 128 ≤ byte.toNat) : vlqByte true byte.toNat = byte := by
  have bounded := byte.toNat_lt
  rw [vlqByte, if_pos rfl, show byte.toNat % 128 + 128 = byte.toNat by omega]
  exact UInt8.ofNat_toNat

theorem vlq_succ (continued : Bool) (value low : Nat) :
    vlq continued ((value + 1) * 128 + low % 128) = vlq true value ++ [vlqByte continued low] := by
  rw [vlq, if_neg (by omega), show ((value + 1) * 128 + low % 128) / 128 - 1 = value by omega, ← vlqByte_mod,
    show ((value + 1) * 128 + low % 128) % 128 = low % 128 by omega, vlqByte_mod]

section
variable {ε : Type}

/-- The writing loop, last byte first. A word has ten bytes at most. -/
def vlqLoop : Nat → Bool → Nat → Outcome ε (List UInt8)
  | 0, _, _ => .ok []
  | rounds + 1, continued, value =>
    if value ≤ 127 then .ok [vlqByte continued value]
    else do
      let next ← uncheckedSub (value / 128) 1
      let others ← vlqLoop rounds true next
      return vlqByte continued value :: others

def encodeVlq (value : Nat) : Outcome ε (List UInt8) := do
  let reversed ← vlqLoop 10 false value
  return reversed.reverse

theorem vlqLoop_eq {rounds : Nat} {continued : Bool} {value : Nat} (fits : value < 128 ^ rounds)
    (positive : 0 < rounds) :
    (vlqLoop rounds continued value : Outcome ε (List UInt8)) = .ok (vlq continued value).reverse := by
  induction rounds generalizing continued value with
  | zero => exact absurd positive (Nat.lt_irrefl 0)
  | succ rounds ih =>
    rw [vlqLoop, vlq]
    split
    · rfl
    rw [Nat.pow_succ] at fits
    have shorter : value / 128 - 1 < 128 ^ rounds :=
      Nat.lt_of_le_of_lt (Nat.sub_le _ _) (Nat.div_lt_of_lt_mul (by rwa [Nat.mul_comm] at fits))
    have others : 0 < rounds := by
      rcases Nat.eq_zero_or_pos rounds with rfl | positive
      · omega
      · exact positive
    rw [uncheckedSub_of (by omega), ok_bind, ih shorter others, reverse_append]
    rfl

theorem encodeVlq_eq {value : Nat} (fits : value < 2 ^ 64) :
    (encodeVlq value : Outcome ε (List UInt8)) = .ok (vlq false value) := by
  have room : value < 128 ^ 10 := Nat.lt_trans fits (by decide)
  rw [encodeVlq, vlqLoop_eq room (by decide), ok_bind, reverse_reverse]
  rfl

end

variable {ε : Type} (error : ε)

def readVlq : Nat → List UInt8 → Outcome ε (Nat × List UInt8 × List UInt8)
  | _, [] => refuse error
  | value, byte :: rest => do
      let scaled ← checked error (value * 128)
      let next ← checked error (scaled + byte.toNat % 128)
      if byte.toNat < 128 then return (next, [byte], rest)
      else do
        let carried ← checked error (next + 1)
        let (final, consumed, remaining) ← readVlq carried rest
        return (final, byte :: consumed, remaining)

theorem toNat_vlqByte (continued : Bool) (value : Nat) :
    (vlqByte continued value).toNat = value % 128 + if continued then 128 else 0 := by
  have small : value % 128 + (if continued then 128 else 0) < 256 := by split <;> omega
  exact Nat.mod_eq_of_lt small

variable {error} {value : Nat} {consumed bytes rest : List UInt8}

theorem vlq_inj {continued : Bool} {other : Nat} (same : vlq continued value = vlq continued other) :
    value = other := by
  induction value using Nat.strongRecOn generalizing continued other with
  | ind value ih =>
    have digits : ∀ number, vlq continued number = (if number ≤ 127 then [] else vlq true (number / 128 - 1)) ++
        [vlqByte continued number] := fun number => by
      rw [vlq]
      split <;> rfl
    have nonempty : ∀ number, vlq true number ≠ [] := fun number => by
      rw [vlq]
      split <;> simp
    rw [digits, digits other] at same
    obtain ⟨front, last⟩ := append_inj' same rfl
    have low : (vlqByte continued value).toNat = (vlqByte continued other).toNat := by rw [cons.inj last |>.1]
    rw [toNat_vlqByte, toNat_vlqByte] at low
    split at front
    · split at front
      · omega
      · exact absurd front.symm (nonempty _)
    · split at front
      · exact absurd front (nonempty _)
      · have high := ih (value / 128 - 1) (by omega) front
        omega

theorem readVlq_last {start : Nat} (fits : start * 128 + value % 128 < 2 ^ 64) (rest : List UInt8) :
    readVlq error start (vlqByte false value :: rest) =
    .ok (start * 128 + value % 128, [vlqByte false value], rest) := by
  have byte := toNat_vlqByte false value
  simp only [Bool.false_eq_true, if_false, Nat.add_zero] at byte
  rw [readVlq, checked_of (by omega), ok_bind, byte, Nat.mod_mod, checked_of fits, ok_bind, if_pos (by omega)]
  rfl

theorem readVlq_next {start final : Nat} (fits : start * 128 + value % 128 + 1 < 2 ^ 64)
    (remaining : readVlq error (start * 128 + value % 128 + 1) bytes = .ok (final, consumed, rest)) :
    readVlq error start (vlqByte true value :: bytes) = .ok (final, vlqByte true value :: consumed, rest) := by
  have byte := toNat_vlqByte true value
  simp only [if_true] at byte
  have low : (vlqByte true value).toNat % 128 = value % 128 := by omega
  rw [readVlq, checked_of (by omega), ok_bind, low, checked_of (by omega), ok_bind, if_neg (by omega),
    checked_of fits, ok_bind, remaining]
  rfl

/-- Marked bytes leave the number they spell, plus one, to the bytes after them. -/
theorem readVlq_marked {final : Nat} (fits : value + 1 < 2 ^ 64)
    (remaining : readVlq error (value + 1) bytes = .ok (final, consumed, rest)) :
    readVlq error 0 (vlq true value ++ bytes) = .ok (final, vlq true value ++ consumed, rest) := by
  induction value using Nat.strongRecOn generalizing bytes consumed with
  | ind value ih =>
    rw [vlq]
    split
    · have same : 0 * 128 + value % 128 = value := by omega
      exact readVlq_next (by omega) (by rwa [same])
    · have same : (value / 128 - 1 + 1) * 128 + value % 128 = value := by omega
      rw [append_assoc, append_assoc]
      exact ih (value / 128 - 1) (by omega) (by omega) (readVlq_next (by omega) (by rwa [same]))

theorem readVlq_vlq (fits : value < 2 ^ 64) (rest : List UInt8) :
    readVlq error 0 (vlq false value ++ rest) = .ok (value, vlq false value, rest) := by
  rw [vlq]
  split
  · have same : 0 * 128 + value % 128 = value := by omega
    exact (readVlq_last (by omega) rest).trans (by rw [same])
  · have same : (value / 128 - 1 + 1) * 128 + value % 128 = value := by omega
    rw [append_assoc]
    exact readVlq_marked (by omega) ((readVlq_last (by omega) rest).trans (by rw [same]))

theorem readVlq_spec {start : Nat} (read : readVlq error start bytes = .ok (value, consumed, rest)) :
    bytes = consumed ++ rest ∧ value < 2 ^ 64 := by
  induction bytes generalizing start value consumed rest with
  | nil => cases read
  | cons _ _ ih =>
    simp only [readVlq, bind_eq_ok, checked_eq_ok] at read
    obtain ⟨_, ⟨-, rfl⟩, _, ⟨fits, rfl⟩, read⟩ := read
    split at read
    · cases read
      exact ⟨rfl, fits⟩
    simp only [bind_eq_ok, checked_eq_ok] at read
    obtain ⟨_, ⟨-, rfl⟩, ⟨_, _, _⟩, isRead, same⟩ := read
    cases same
    obtain ⟨rfl, bounded⟩ := ih isRead
    exact ⟨rfl, bounded⟩

theorem safe_readVlq (start : Nat) (bytes : List UInt8) : Safe (readVlq error start bytes) := by
  induction bytes generalizing start with
  | nil => exact nofun
  | cons _ _ ih =>
    refine (safe_checked _ _).bind fun scaled _ => (safe_checked _ _).bind fun next _ => ?_
    split
    · exact safe_pure _
    · exact (safe_checked _ _).bind fun carried _ => (ih carried).bind fun _ _ => safe_pure _

end Rbtc.Foundation
