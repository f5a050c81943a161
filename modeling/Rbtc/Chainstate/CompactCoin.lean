import Rbtc.Chainstate.Coins
import Rbtc.Foundation.Words

/-! The compact form of a coin in the MDBX tables (`utxo.rs`). Unchecked 64-bit operations panic on
overflow. It is lossless, and unique up to scripts spelled out that have a short form. -/

namespace Rbtc.Chainstate

open Foundation Bitcoin

/-- The secp256k1 library: points by their 32-byte coordinates, and its parser of serialized keys. -/
structure PublicKeys where
  Point : Type
  x : Point → List UInt8
  y : Point → List UInt8
  fromSlice : List UInt8 → Option Point

namespace PublicKeys

variable (keys : PublicKeys)

def serializeUncompressed (point : keys.Point) : List UInt8 := 4 :: (keys.x point ++ keys.y point)

def lowBit (coordinate : List UInt8) : UInt8 := coordinate.getLast?.getD 0 &&& 1

/-- Keys are parsed exactly for points of the curve, compressed ones by `x` and parity. -/
structure Lawful : Prop where
  x_length : ∀ point, (keys.x point).length = 32
  y_length : ∀ point, (keys.y point).length = 32
  compressed : ∀ tag x point, tag = 2 ∨ tag = 3 → x.length = 32 →
    (keys.fromSlice (tag :: x) = some point ↔ keys.x point = x ∧ 2 ||| lowBit (keys.y point) = tag)
  uncompressed : ∀ x y point, x.length = 32 → y.length = 32 →
    (keys.fromSlice (4 :: (x ++ y)) = some point ↔ keys.x point = x ∧ keys.y point = y)

end PublicKeys

/-- Divides by ten while the amount is round, nine times at most. -/
def stripZeros : Nat → Nat → Nat → Nat × Nat
  | 0, amount, exponent => (amount, exponent)
  | rounds + 1, amount, exponent =>
    if amount % 10 = 0 then stripZeros rounds (amount / 10) (exponent + 1) else (amount, exponent)

def compressAmount (amount : Nat) : Outcome UtxoError Nat :=
  if amount = 0 then .ok 0
  else
    let (stripped, exponent) := stripZeros 9 amount 0
    if exponent < 9 then do
      let scaled ← unchecked (9 * (stripped / 10))
      let sum ← unchecked (scaled + stripped % 10)
      let body ← uncheckedSub sum 1
      let tens ← unchecked (10 * body)
      let code ← unchecked (1 + tens)
      unchecked (code + exponent)
    else do
      let body ← uncheckedSub stripped 1
      let tens ← unchecked (10 * body)
      unchecked (10 + tens)

def amountOverflow : UtxoError := .malformed "compressed amount overflow"

def scaleByTen : Nat → Nat → Outcome UtxoError Nat
  | 0, value => .ok value
  | rounds + 1, value => do
      let next ← checked amountOverflow (value * 10)
      scaleByTen rounds next

def decompressAmount (amount : Nat) : Outcome UtxoError Nat :=
  if amount = 0 then .ok 0
  else do
    let reduced ← uncheckedSub amount 1
    let exponent := reduced % 10
    let body := reduced / 10
    let value ←
      if exponent < 9 then do
        let digit ← unchecked (body % 9 + 1)
        let scaled ← checked amountOverflow (body / 9 * 10)
        checked amountOverflow (scaled + digit)
      else checked amountOverflow (body + 1)
    scaleByTen exponent value

def decodeVlq (bytes : List UInt8) (field : String) : Outcome UtxoError (Nat × List UInt8) := do
  let (value, consumed, rest) ← readVlq (UtxoError.malformed field) 0 bytes
  let canonical ← encodeVlq value
  ensure (canonical = consumed) (.refused (.malformed "non-canonical VLQ"))
  return (value, rest)

def takeBytes (bytes : List UInt8) (length : Nat) (field : String) :
    Outcome UtxoError (List UInt8 × List UInt8) :=
  if length ≤ bytes.length then .ok (bytes.take length, bytes.drop length)
  else refuse (.malformed field)

def framed (before after : List UInt8) (length : Nat) (script : List UInt8) : Option (List UInt8) :=
  if script.length = before.length + length + after.length ∧ script.take before.length = before ∧
      script.drop (before.length + length) = after then
    some ((script.drop before.length).take length)
  else none

section
variable (keys : PublicKeys)

def publicKeyOf (script : List UInt8) : Option (List UInt8) :=
  match framed [0x21] [0xac] 33 script with
  | some key =>
    if (key.head? = some 2 ∨ key.head? = some 3) ∧ (keys.fromSlice key).isSome then some key else none
  | none =>
    match framed [0x41] [0xac] 65 script with
    | some key => if key.head? = some 4 ∧ (keys.fromSlice key).isSome then some key else none
    | none => none

/-- The short form of a key: its `x` behind a tag for the format and the parity of `y`. -/
def compressKey (key : List UInt8) : List UInt8 :=
  let tag := if key.head? = some 4 then 4 ||| PublicKeys.lowBit key else key.head?.getD 0
  tag :: (key.drop 1).take 32

def shortForm (script : List UInt8) : Option (List UInt8) :=
  match framed [0x76, 0xa9, 0x14] [0x88, 0xac] 20 script with
  | some hash => some (0 :: hash)
  | none =>
    match framed [0xa9, 0x14] [0x87] 20 script with
    | some hash => some (1 :: hash)
    | none => (publicKeyOf keys script).map compressKey

def specialScriptCount : Nat := 6

def encodeScript (script : List UInt8) : Outcome UtxoError (List UInt8) :=
  match shortForm keys script with
  | some bytes => .ok bytes
  | none => do
      let length ← checked (.malformed "script length overflow") (script.length + specialScriptCount)
      let size ← encodeVlq length
      return size ++ script

def invalidKey : UtxoError := .malformed "invalid compressed public key"

def decodeScriptBody (rest : List UInt8) : Nat → Outcome UtxoError (List UInt8 × List UInt8)
  | 0 => do
      let (hash, rest) ← takeBytes rest 20 "compressed P2PKH"
      return ([0x76, 0xa9, 0x14] ++ hash ++ [0x88, 0xac], rest)
  | 1 => do
      let (hash, rest) ← takeBytes rest 20 "compressed P2SH"
      return ([0xa9, 0x14] ++ hash ++ [0x87], rest)
  | size@2 | size@3 => do
      let (x, rest) ← takeBytes rest 32 "compressed public key"
      let _ ← require (keys.fromSlice (UInt8.ofNat size :: x)) (.refused invalidKey)
      return ([0x21] ++ (UInt8.ofNat size :: x) ++ [0xac], rest)
  | size@4 | size@5 => do
      let (x, rest) ← takeBytes rest 32 "compressed public key"
      let tag ← uncheckedSub size 2
      let point ← require (keys.fromSlice (UInt8.ofNat tag :: x)) (.refused invalidKey)
      return ([0x41] ++ keys.serializeUncompressed point ++ [0xac], rest)
  | size => do
      ensure (specialScriptCount ≤ size) (.refused (.malformed "compressed script type"))
      takeBytes rest (size - specialScriptCount) "compressed script"

def decodeScript (bytes : List UInt8) : Outcome UtxoError (List UInt8 × List UInt8) := do
  let (size, rest) ← decodeVlq bytes "compressed script type"
  decodeScriptBody keys rest size

end

variable (keys : PublicKeys)

def encodeCompact (coin : Utxo) : Outcome UtxoError (List UInt8) := do
  let doubled ← checked (.malformed "UTXO header code overflow") (coin.height * 2)
  let headerCode ← checked (.malformed "UTXO header code overflow")
    (doubled + if coin.isCoinbase then 1 else 0)
  let header ← encodeVlq headerCode
  let compressed ← compressAmount coin.valueSats
  let amount ← encodeVlq compressed
  let script ← encodeScript keys coin.scriptPubkey
  return header ++ amount ++ script

def decodeCompactWithCreationMtp (bytes : List UInt8) (creationMtp : Nat) : Outcome UtxoError Utxo := do
  let (headerCode, rest) ← decodeVlq bytes "UTXO header code"
  ensure (headerCode / 2 < 2 ^ 32) (.refused (.malformed "UTXO height exceeds u32"))
  let (compressed, rest) ← decodeVlq rest "compressed amount"
  let valueSats ← decompressAmount compressed
  let (scriptPubkey, rest) ← decodeScript keys rest
  ensure (rest = []) (.refused (.malformed "trailing UTXO bytes"))
  return {
    valueSats
    height := headerCode / 2
    isCoinbase := headerCode % 2 ≠ 0
    lastTouched := 0
    creationMtp
    scriptPubkey }

open PublicKeys List Option Nat

theorem decodeVlq_eq_ok {bytes rest : List UInt8} {field : String} {value : Nat} :
    decodeVlq bytes field = .ok (value, rest) ↔ value < 2 ^ 64 ∧ bytes = vlq false value ++ rest := by
  simp only [decodeVlq, bind_eq_ok, ensure_eq_ok, exists_const, pure_eq_ok, Prod.mk.injEq]
  constructor
  · rintro ⟨⟨_, _, _⟩, isRead, _, isCanonical, same, rfl, rfl⟩
    obtain ⟨rfl, fits⟩ := readVlq_spec isRead
    rw [encodeVlq_eq fits] at isCanonical
    cases isCanonical
    exact ⟨fits, by rw [same]⟩
  · rintro ⟨fits, rfl⟩
    exact ⟨_, readVlq_vlq fits rest, _, encodeVlq_eq fits, rfl, rfl, rfl⟩

theorem safe_decodeVlq (bytes : List UInt8) (field : String) : Safe (decodeVlq bytes field) := by
  refine (safe_readVlq _ _).bind fun read isRead => ?_
  dsimp only
  rw [encodeVlq_eq (readVlq_spec isRead).2]
  exact safe_ensure.bind fun _ _ => safe_pure _

theorem stripZeros_spec {rounds amount exponent : Nat} (positive : 0 < amount) :
    (stripZeros rounds amount exponent).1 * 10 ^ ((stripZeros rounds amount exponent).2 - exponent) = amount ∧
      0 < (stripZeros rounds amount exponent).1 ∧ exponent ≤ (stripZeros rounds amount exponent).2 ∧
      (stripZeros rounds amount exponent).2 ≤ exponent + rounds ∧
      ((stripZeros rounds amount exponent).2 < exponent + rounds → (stripZeros rounds amount exponent).1 % 10 ≠ 0) := by
  induction rounds generalizing amount exponent with
  | zero => exact ⟨by simp [stripZeros], positive, le_rfl, le_rfl, fun short => absurd short (lt_irrefl _)⟩
  | succ rounds ih =>
    rw [stripZeros]
    split
    · next round =>
      obtain ⟨product, stays, _, _, exact⟩ := @ih (amount / 10) (exponent + 1) (by omega)
      refine ⟨?_, stays, by omega, by omega, fun short => exact (by omega)⟩
      rw [show (stripZeros rounds (amount / 10) (exponent + 1)).2 - exponent =
        (stripZeros rounds (amount / 10) (exponent + 1)).2 - (exponent + 1) + 1 by omega, pow_succ,
        ← mul_assoc, product]
      omega
    · next rough => exact ⟨by simp, positive, le_rfl, by omega, fun _ => rough⟩

theorem stripZeros_eq {rounds amount exponent zeros : Nat} (few : zeros ≤ rounds)
    (rough : zeros < rounds → amount % 10 ≠ 0) :
    stripZeros rounds (amount * 10 ^ zeros) exponent = (amount, exponent + zeros) := by
  induction zeros generalizing rounds exponent with
  | zero =>
    cases rounds with
    | zero => simp [stripZeros]
    | succ rounds => rw [stripZeros, pow_zero, mul_one, if_neg (rough (succ_pos _))]; rfl
  | succ zeros ih =>
    cases rounds with
    | zero => exact absurd few (not_succ_le_zero _)
    | succ _ =>
      have divided : amount * 10 ^ (zeros + 1) / 10 = amount * 10 ^ zeros := by
        rw [Nat.pow_succ, ← Nat.mul_assoc, Nat.mul_div_cancel _ (by decide)]
      have round : amount * 10 ^ (zeros + 1) % 10 = 0 := by
        rw [Nat.pow_succ, ← Nat.mul_assoc, Nat.mul_mod_left]
      rw [stripZeros, if_pos round, divided, ih (le_of_succ_le_succ few) fun short => rough (succ_lt_succ short)]
      congr 1
      omega

theorem scaleByTen_eq_ok {rounds value result : Nat} (fits : value < 2 ^ 64) :
    scaleByTen rounds value = .ok result ↔ result = value * 10 ^ rounds ∧ result < 2 ^ 64 := by
  induction rounds generalizing value with
  | zero =>
    rw [scaleByTen, Except.ok.injEq, pow_zero, mul_one]
    exact ⟨fun same => ⟨same.symm, same ▸ fits⟩, fun both => both.1.symm⟩
  | succ rounds ih =>
    simp only [scaleByTen, bind_eq_ok, checked_eq_ok]
    constructor
    · rintro ⟨_, ⟨small, rfl⟩, scaled⟩
      obtain ⟨rfl, bounded⟩ := (ih small).mp scaled
      exact ⟨by rw [pow_succ, mul_comm (10 ^ rounds), mul_assoc], bounded⟩
    rintro ⟨rfl, bounded⟩
    have regrouped : value * 10 ^ (rounds + 1) = value * 10 * 10 ^ rounds := by
      rw [pow_succ, mul_comm (10 ^ rounds), ← mul_assoc]
    rw [regrouped] at bounded
    have small : value * 10 < 2 ^ 64 := (Nat.le_mul_of_pos_right _ (Nat.pow_pos (by decide))).trans_lt bounded
    exact ⟨_, ⟨small, rfl⟩, (ih small).mpr ⟨regrouped, regrouped ▸ bounded⟩⟩

theorem safe_scaleByTen (rounds value : Nat) : Safe (scaleByTen rounds value) := by
  induction rounds generalizing value with
  | zero => exact safe_ok _
  | succ _ ih => exact (safe_checked _ _).bind fun next _ => ih next

/-- The code of an amount with its parts: a last digit before fewer than nine zeros, or nine zeros. -/
inductive AmountCode : Nat → Nat → Prop where
  | zero : AmountCode 0 0
  | rough (front digit zeros : Nat) (positive : 0 < digit) (decimal : digit < 10) (few : zeros < 9) :
      AmountCode ((10 * front + digit) * 10 ^ zeros) (1 + 10 * (9 * front + digit - 1) + zeros)
  | round (front : Nat) (positive : 0 < front) : AmountCode (front * 10 ^ 9) (10 + 10 * (front - 1))

theorem exists_amountCode (amount : Nat) : ∃ code, AmountCode amount code := by
  rcases Nat.eq_zero_or_pos amount with rfl | positive
  · exact ⟨0, .zero⟩
  obtain ⟨product, stays, -, below, rough⟩ := @stripZeros_spec 9 amount 0 positive
  generalize (stripZeros 9 amount 0).1 = stripped at product stays rough
  generalize (stripZeros 9 amount 0).2 = zeros at product below rough
  subst product
  rcases lt_or_eq_of_le below with few | nine
  · have parts : 10 * (stripped / 10) + stripped % 10 = stripped := div_add_mod _ _
    have code := AmountCode.rough (stripped / 10) (stripped % 10) zeros (by omega) (by omega) (by omega)
    rw [parts] at code
    exact ⟨_, code⟩
  · obtain rfl : zeros = 9 := by omega
    exact ⟨_, .round stripped stays⟩

section
variable {code amount : Nat}

theorem AmountCode.code_le (isCode : AmountCode amount code) : code ≤ 9 * amount + 10 := by
  cases isCode with
  | zero => exact zero_le _
  | rough front digit zeros _ _ _ =>
    have grows : 10 * front + digit ≤ (10 * front + digit) * 10 ^ zeros :=
      Nat.le_mul_of_pos_right _ (Nat.pow_pos (by decide))
    omega
  | round _ _ => omega

theorem compressAmount_eq (isCode : AmountCode amount code) (fits : code < 2 ^ 64) :
    compressAmount amount = .ok code := by
  cases isCode with
  | zero => rfl
  | rough front digit zeros positive _ few =>
    have nonzero : (10 * front + digit) * 10 ^ zeros ≠ 0 :=
      Nat.mul_ne_zero (by omega) (Nat.pow_pos (by decide)).ne'
    have stripped := @stripZeros_eq 9 (10 * front + digit) 0 zeros few.le fun _ => by omega
    rw [compressAmount, if_neg nonzero, stripped]
    dsimp only
    rw [if_pos (by omega), show (10 * front + digit) / 10 = front by omega,
      show (10 * front + digit) % 10 = digit by omega, unchecked_of (by omega), ok_bind,
      unchecked_of (by omega), ok_bind, uncheckedSub_of (by omega), ok_bind, unchecked_of (by omega),
      ok_bind, unchecked_of (by omega), ok_bind, zero_add, unchecked_of fits]
  | round front positive =>
    have nonzero : front * 10 ^ 9 ≠ 0 := mul_ne_zero positive.ne' (by decide)
    have stripped := @stripZeros_eq 9 front 0 9 le_rfl fun short => absurd short (lt_irrefl _)
    rw [compressAmount, if_neg nonzero, stripped]
    dsimp only
    rw [if_neg (by decide), uncheckedSub_of positive, ok_bind, unchecked_of (by omega), ok_bind, unchecked_of fits]

theorem AmountCode.amount_unique {first second : Nat} (isFirst : AmountCode first code)
    (isSecond : AmountCode second code) : first = second := by
  cases isFirst with
  | zero =>
    generalize isCode : 0 = code at isSecond
    cases isSecond with
    | zero => rfl
    | rough front digit zeros _ _ _ => omega
    | round front _ => omega
  | rough front digit zeros _ _ _ =>
    generalize isCode : 1 + 10 * (9 * front + digit - 1) + zeros = code at isSecond
    cases isSecond with
    | zero => omega
    | rough front' digit' zeros' _ _ _ =>
      obtain ⟨rfl, rfl, rfl⟩ : front = front' ∧ digit = digit' ∧ zeros = zeros' := by omega
      rfl
    | round front' _ => omega
  | round front _ =>
    generalize isCode : 10 + 10 * (front - 1) = code at isSecond
    cases isSecond with
    | zero => omega
    | rough front' _ _ _ _ _ => omega
    | round front' _ =>
      obtain rfl : front = front' := by omega
      rfl

theorem decompressAmount_eq (word : code < 2 ^ 64) :
    ∃ value zeros, value < 2 ^ 64 ∧ AmountCode (value * 10 ^ zeros) code ∧
      decompressAmount code = scaleByTen zeros value := by
  rcases Nat.eq_zero_or_pos code with rfl | positive
  · exact ⟨0, 0, by decide, .zero, rfl⟩
  have nonzero : code ≠ 0 := positive.ne'
  by_cases few : (code - 1) % 10 < 9
  · refine ⟨(code - 1) / 10 / 9 * 10 + ((code - 1) / 10 % 9 + 1), (code - 1) % 10, by omega, ?_, ?_⟩
    · have isCode := AmountCode.rough ((code - 1) / 10 / 9) ((code - 1) / 10 % 9 + 1) ((code - 1) % 10)
        (by omega) (by omega) few
      rw [show 1 + 10 * (9 * ((code - 1) / 10 / 9) + ((code - 1) / 10 % 9 + 1) - 1) + (code - 1) % 10 =
        code by omega] at isCode
      rwa [mul_comm ((code - 1) / 10 / 9)]
    · rw [decompressAmount, if_neg nonzero, uncheckedSub_of positive, ok_bind, if_pos few,
        unchecked_of (by omega), ok_bind, checked_of (by omega), ok_bind, checked_of (by omega), ok_bind]
  · refine ⟨(code - 1) / 10 + 1, 9, by omega, ?_, ?_⟩
    · have isCode := AmountCode.round ((code - 1) / 10 + 1) (by omega)
      rwa [show 10 + 10 * ((code - 1) / 10 + 1 - 1) = code by omega] at isCode
    · have nine : (code - 1) % 10 = 9 := by omega
      rw [decompressAmount, if_neg nonzero, uncheckedSub_of positive, ok_bind, if_neg few,
        checked_of (by omega), ok_bind, nine]

theorem decompressAmount_eq_ok (word : code < 2 ^ 64) :
    decompressAmount code = .ok amount ↔ AmountCode amount code ∧ amount < 2 ^ 64 := by
  obtain ⟨_, _, fits, isCode, found⟩ := decompressAmount_eq word
  rw [found, scaleByTen_eq_ok fits]
  constructor
  · rintro ⟨rfl, bounded⟩
    exact ⟨isCode, bounded⟩
  · rintro ⟨isOther, bounded⟩
    exact ⟨isOther.amount_unique isCode, bounded⟩

theorem safe_decompressAmount (word : code < 2 ^ 64) : Safe (decompressAmount code) := by
  obtain ⟨value, zeros, -, -, found⟩ := decompressAmount_eq word
  rw [found]
  exact safe_scaleByTen zeros value

end

theorem takeBytes_eq_ok {bytes taken rest : List UInt8} {length : Nat} {field : String} :
    takeBytes bytes length field = .ok (taken, rest) ↔ taken.length = length ∧ bytes = taken ++ rest := by
  unfold takeBytes
  split
  · next enough =>
    rw [Except.ok.injEq, Prod.mk.injEq]
    constructor
    · rintro ⟨rfl, rfl⟩
      exact ⟨length_take_of_le enough, (take_append_drop length bytes).symm⟩
    · rintro ⟨rfl, rfl⟩
      exact ⟨take_left, drop_left⟩
  · next short =>
    refine ⟨fun found => (by cases found), ?_⟩
    rintro ⟨rfl, rfl⟩
    exact absurd (by rw [length_append]; omega) short

theorem safe_takeBytes (bytes : List UInt8) (length : Nat) (field : String) : Safe (takeBytes bytes length field) := by
  unfold takeBytes
  split
  · exact safe_ok _
  · exact nofun

section
variable {script body : List UInt8} {tag : UInt8} {size : Nat} {before after bytes : List UInt8} {length : Nat}

theorem framed_eq_some {middle : List UInt8} : framed before after length script = some middle ↔
      middle.length = length ∧ script = before ++ middle ++ after := by
  unfold framed
  constructor
  · intro found
    split at found
    · next frame =>
      obtain ⟨_, start, finish⟩ := frame
      cases found
      refine ⟨by rw [length_take, length_drop]; omega, ?_⟩
      have rest : (script.drop before.length).drop length = after := by rw [drop_drop, finish]
      calc script = script.take before.length ++ script.drop before.length :=
            (take_append_drop _ _).symm
        _ = before ++ ((script.drop before.length).take length ++ after) := by
            rw [start, ← rest, take_append_drop]
        _ = _ := (append_assoc _ _ _).symm
    · cases found
  · rintro ⟨rfl, rfl⟩
    rw [if_pos ⟨by simp only [length_append], by rw [append_assoc, take_left], by
      rw [← length_append, drop_left]⟩, append_assoc, drop_left, take_left]

theorem framed_eq_none (other : script.length ≠ before.length + length + after.length) :
    framed before after length script = none := if_neg fun frame => other frame.1

variable (keys : PublicKeys)

inductive Template : List UInt8 → UInt8 → List UInt8 → Prop where
  | publicKeyHash (hash : List UInt8) (size : hash.length = 20) :
      Template ([0x76, 0xa9, 0x14] ++ hash ++ [0x88, 0xac]) 0 hash
  | scriptHash (hash : List UInt8) (size : hash.length = 20) :
      Template ([0xa9, 0x14] ++ hash ++ [0x87]) 1 hash
  | compressed (tag : UInt8) (x : List UInt8) (point : keys.Point) (parity : tag = 2 ∨ tag = 3)
      (size : x.length = 32) (onCurve : keys.fromSlice (tag :: x) = some point) :
      Template ([0x21] ++ (tag :: x) ++ [0xac]) tag x
  | uncompressed (point : keys.Point) :
      Template ([0x41] ++ keys.serializeUncompressed point ++ [0xac]) (4 ||| lowBit (keys.y point)) (keys.x point)

theorem lowBit_eq (coordinate : List UInt8) : lowBit coordinate = 0 ∨ lowBit coordinate = 1 := by
  unfold lowBit
  generalize coordinate.getLast?.getD 0 = byte
  have bit : (byte &&& 1).toNat = byte.toNat % 2 := and_one_is_mod _
  rcases mod_two_eq_zero_or_one byte.toNat with even | odd
  · exact .inl (UInt8.toNat_inj.mp (by rw [bit, even]; rfl))
  · exact .inr (UInt8.toNat_inj.mp (by rw [bit, odd]; rfl))

variable {keys}

theorem lowBit_append {front back : List UInt8} (nonempty : back ≠ []) : lowBit (front ++ back) = lowBit back := by
  rw [lowBit, getLast?_append_of_ne_nil _ nonempty, lowBit]

theorem Template.tag_lt (template : Template keys script tag body) : tag.toNat < 6 := by
  cases template with
  | publicKeyHash _ _ => decide
  | scriptHash _ _ => decide
  | compressed _ _ point parity _ _ => rcases parity with rfl | rfl <;> decide
  | uncompressed point => rcases lowBit_eq (keys.y point) with bit | bit <;> rw [bit] <;> decide

theorem compressKey_compressed {x : List UInt8} (parity : tag = 2 ∨ tag = 3)
    (size : x.length = 32) : compressKey (tag :: x) = tag :: x := by
  have untagged : ¬ tag = 4 := by rcases parity with rfl | rfl <;> decide
  simp [compressKey, untagged, ← size]

theorem exists_tag {key : List UInt8} (sized : key.length = size + 1) : ∃ tag x, key = tag :: x ∧ x.length = size := by
  cases key with
  | nil => cases sized
  | cons tag x => exact ⟨tag, x, rfl, succ.inj sized⟩

theorem decodeScriptBody_compressed (parity : tag = 2 ∨ tag = 3) (rest : List UInt8) :
    decodeScriptBody keys rest tag.toNat = (do
      let (x, rest) ← takeBytes rest 32 "compressed public key"
      let _ ← require (keys.fromSlice (tag :: x)) (.refused invalidKey)
      return ([0x21] ++ (tag :: x) ++ [0xac], rest)) := by
  rcases parity with rfl | rfl <;> rfl

theorem decodeScriptBody_uncompressed (parity : tag = 2 ∨ tag = 3) (rest : List UInt8) :
    decodeScriptBody keys rest (tag + 2).toNat = (do
      let (x, rest) ← takeBytes rest 32 "compressed public key"
      let point ← require (keys.fromSlice (tag :: x)) (.refused invalidKey)
      return ([0x41] ++ keys.serializeUncompressed point ++ [0xac], rest)) := by
  rcases parity with rfl | rfl <;> rfl

theorem decodeScriptBody_raw (raw : 6 ≤ size) (rest : List UInt8) :
    decodeScriptBody keys rest size = takeBytes rest (size - 6) "compressed script" := by
  obtain ⟨length, rfl⟩ := Nat.exists_eq_add_of_le' raw
  rfl

theorem sizeCode_cases (size : Nat) : size = (0 : UInt8).toNat ∨ size = (1 : UInt8).toNat ∨
      (∃ tag : UInt8, (tag = 2 ∨ tag = 3) ∧ size = tag.toNat) ∨
      (∃ tag : UInt8, (tag = 2 ∨ tag = 3) ∧ size = (tag + 2).toNat) ∨ 6 ≤ size := by
  match size with
  | 0 => exact .inl rfl
  | 1 => exact .inr (.inl rfl)
  | 2 => exact .inr (.inr (.inl ⟨2, .inl rfl, rfl⟩))
  | 3 => exact .inr (.inr (.inl ⟨3, .inr rfl, rfl⟩))
  | 4 => exact .inr (.inr (.inr (.inl ⟨2, .inl rfl, rfl⟩)))
  | 5 => exact .inr (.inr (.inr (.inl ⟨3, .inr rfl, rfl⟩)))
  | size + 6 => exact .inr (.inr (.inr (.inr (le_add_left 6 size))))

theorem tag_of_lowBit (coordinate : List UInt8) : 4 ||| lowBit coordinate = (2 ||| lowBit coordinate) + 2 ∧
      (2 ||| lowBit coordinate = 2 ∨ 2 ||| lowBit coordinate = 3) := by
  rcases lowBit_eq coordinate with bit | bit <;> rw [bit] <;> decide

theorem safe_decodeScriptBody (bytes : List UInt8) (size : Nat) : Safe (decodeScriptBody keys bytes size) := by
  rcases sizeCode_cases size with rfl | rfl | ⟨_, parity, rfl⟩ | ⟨_, parity, rfl⟩ | raw
  · exact (safe_takeBytes _ _ _).bind fun _ _ => safe_pure _
  · exact (safe_takeBytes _ _ _).bind fun _ _ => safe_pure _
  · rw [decodeScriptBody_compressed parity]
    exact (safe_takeBytes _ _ _).bind fun _ _ => safe_require.bind fun _ _ => safe_pure _
  · rw [decodeScriptBody_uncompressed parity]
    exact (safe_takeBytes _ _ _).bind fun _ _ => safe_require.bind fun _ _ => safe_pure _
  · rw [decodeScriptBody_raw raw]
    exact safe_takeBytes _ _ _

theorem vlq_tag (small : tag.toNat < 6) : vlq false tag.toNat = [tag] := by
  rw [vlq, if_pos (by omega), vlqByte, mod_eq_of_lt (by omega)]
  simp

theorem decodeVlq_tag (small : tag.toNat < 6) (rest : List UInt8) (field : String) :
    decodeVlq (tag :: rest) field = .ok (tag.toNat, rest) :=
  decodeVlq_eq_ok.mpr ⟨by omega, by rw [vlq_tag small]; rfl⟩

variable (lawful : keys.Lawful)
include lawful

theorem compressKey_uncompressed (point : keys.Point) :
    compressKey (keys.serializeUncompressed point) = (4 ||| lowBit (keys.y point)) :: keys.x point := by
  have xSize := lawful.x_length point
  have ySize := lawful.y_length point
  have nonempty : keys.y point ≠ [] := fun empty => by rw [empty] at ySize; cases ySize
  have bit : lowBit (keys.serializeUncompressed point) = lowBit (keys.y point) :=
    @lowBit_append (4 :: keys.x point) _ nonempty
  rw [compressKey, bit]
  simp [serializeUncompressed, ← xSize]

theorem Template.shortForm_eq
    (template : Template keys script tag body) : shortForm keys script = some (tag :: body) := by
  cases template with
  | publicKeyHash _ size => rw [shortForm, framed_eq_some.mpr ⟨size, rfl⟩]
  | scriptHash _ size =>
    rw [shortForm, framed_eq_none (by simp [size]), framed_eq_some.mpr ⟨size, rfl⟩]
  | compressed _ _ point parity size onCurve =>
    rw [shortForm, framed_eq_none (by simp [size]), framed_eq_none (by simp [size])]
    rw [publicKeyOf, framed_eq_some.mpr ⟨by simp [size], rfl⟩]
    dsimp only
    rw [if_pos ⟨by simpa using parity, by rw [onCurve]; rfl⟩, map_some, compressKey_compressed parity size]
  | uncompressed point =>
    have xSize := lawful.x_length point
    have ySize := lawful.y_length point
    have onCurve := (lawful.uncompressed _ _ point xSize ySize).mpr ⟨rfl, rfl⟩
    have total : (keys.serializeUncompressed point).length = 65 := by
      simp [serializeUncompressed, xSize, ySize]
    rw [shortForm, framed_eq_none (by simp [total]), framed_eq_none (by simp [total])]
    rw [publicKeyOf, framed_eq_none (by simp [total]), framed_eq_some.mpr ⟨total, rfl⟩]
    dsimp only
    rw [if_pos ⟨rfl, by rw [serializeUncompressed, onCurve]; rfl⟩, map_some, compressKey_uncompressed lawful]

theorem exists_template {short : List UInt8} (found : shortForm keys script = some short) :
    ∃ tag body, Template keys script tag body ∧ short = tag :: body := by
  unfold shortForm at found
  split at found
  · next hash isFramed =>
    obtain ⟨size, rfl⟩ := framed_eq_some.mp isFramed
    cases found
    exact ⟨_, _, .publicKeyHash hash size, rfl⟩
  split at found
  · next hash isFramed =>
    obtain ⟨size, rfl⟩ := framed_eq_some.mp isFramed
    cases found
    exact ⟨_, _, .scriptHash hash size, rfl⟩
  obtain ⟨_, isKey, rfl⟩ := map_eq_some_iff.mp found
  unfold publicKeyOf at isKey
  split at isKey
  · next inner isFramed =>
    obtain ⟨sized, rfl⟩ := framed_eq_some.mp isFramed
    split at isKey
    · next valid =>
      obtain ⟨parity, parsed⟩ := valid
      cases isKey
      obtain ⟨tag, x, rfl, size⟩ := exists_tag sized
      obtain ⟨point, onCurve⟩ := isSome_iff_exists.mp parsed
      have parity : tag = 2 ∨ tag = 3 := by simpa using parity
      exact ⟨_, _, .compressed tag x point parity size onCurve, compressKey_compressed parity size⟩
    · cases isKey
  split at isKey
  · next inner isFramed =>
    obtain ⟨sized, rfl⟩ := framed_eq_some.mp isFramed
    split at isKey
    · next valid =>
      obtain ⟨isTagged, parsed⟩ := valid
      cases isKey
      obtain ⟨tag, both, rfl, _⟩ := exists_tag sized
      obtain rfl : tag = 4 := by simpa using isTagged
      obtain ⟨point, onCurve⟩ := isSome_iff_exists.mp parsed
      rw [← take_append_drop 32 both] at onCurve
      obtain ⟨isX, isY⟩ := (lawful.uncompressed _ _ point (by rw [length_take]; omega)
        (by rw [length_drop]; omega)).mp onCurve
      have isPoint : 4 :: both = keys.serializeUncompressed point := by
        rw [serializeUncompressed, isX, isY, take_append_drop]
      rw [isPoint]
      exact ⟨_, _, .uncompressed point, compressKey_uncompressed lawful point⟩
    · cases isKey
  · cases isKey

theorem Template.decodeScriptBody_eq (template : Template keys script tag body) (rest : List UInt8) :
    decodeScriptBody keys (body ++ rest) tag.toNat = .ok (script, rest) := by
  cases template with
  | publicKeyHash _ size =>
    show (takeBytes (body ++ rest) 20 _ >>= fun _ => _) = _
    rw [takeBytes_eq_ok.mpr ⟨size, rfl⟩]
    rfl
  | scriptHash _ size =>
    show (takeBytes (body ++ rest) 20 _ >>= fun _ => _) = _
    rw [takeBytes_eq_ok.mpr ⟨size, rfl⟩]
    rfl
  | compressed _ _ point parity size onCurve =>
    rw [decodeScriptBody_compressed parity, takeBytes_eq_ok.mpr ⟨size, rfl⟩, ok_bind]
    dsimp only
    rw [require_eq_ok.mpr onCurve]
    rfl
  | uncompressed point =>
    obtain ⟨isTag, parity⟩ := tag_of_lowBit (keys.y point)
    have size := lawful.x_length point
    have onCurve := (lawful.compressed _ _ point parity size).mpr ⟨rfl, rfl⟩
    rw [isTag, decodeScriptBody_uncompressed parity, takeBytes_eq_ok.mpr ⟨size, rfl⟩, ok_bind]
    dsimp only
    rw [require_eq_ok.mpr onCurve]
    rfl

theorem of_decodeScriptBody {rest : List UInt8} (decoded : decodeScriptBody keys bytes size = .ok (script, rest)) :
    (∃ tag body, Template keys script tag body ∧ size = tag.toNat ∧ bytes = body ++ rest) ∨
      (size = script.length + 6 ∧ bytes = script ++ rest) := by
  rcases sizeCode_cases size with rfl | rfl | ⟨tag, parity, rfl⟩ | ⟨tag, parity, rfl⟩ | raw
  · obtain ⟨⟨hash, _⟩, isTaken, same⟩ := bind_eq_ok.mp decoded
    obtain ⟨sized, rfl⟩ := takeBytes_eq_ok.mp isTaken
    cases same
    exact .inl ⟨0, hash, .publicKeyHash hash sized, rfl, rfl⟩
  · obtain ⟨⟨hash, _⟩, isTaken, same⟩ := bind_eq_ok.mp decoded
    obtain ⟨sized, rfl⟩ := takeBytes_eq_ok.mp isTaken
    cases same
    exact .inl ⟨1, hash, .scriptHash hash sized, rfl, rfl⟩
  · rw [decodeScriptBody_compressed parity] at decoded
    simp only [bind_eq_ok, require_eq_ok] at decoded
    obtain ⟨⟨x, _⟩, isTaken, point, isPoint, same⟩ := decoded
    obtain ⟨sized, rfl⟩ := takeBytes_eq_ok.mp isTaken
    cases same
    exact .inl ⟨tag, x, .compressed tag x point parity sized isPoint, rfl, rfl⟩
  · rw [decodeScriptBody_uncompressed parity] at decoded
    simp only [bind_eq_ok, require_eq_ok] at decoded
    obtain ⟨⟨_, _⟩, isTaken, point, isPoint, same⟩ := decoded
    obtain ⟨sized, rfl⟩ := takeBytes_eq_ok.mp isTaken
    cases same
    obtain ⟨rfl, rfl⟩ := (lawful.compressed _ _ point parity sized).mp isPoint
    exact .inl ⟨_, _, .uncompressed point, by rw [(tag_of_lowBit _).1], rfl⟩
  · rw [decodeScriptBody_raw raw] at decoded
    obtain ⟨_, rfl⟩ := takeBytes_eq_ok.mp decoded
    exact .inr ⟨by omega, rfl⟩

theorem decodeScript_encodeScript (short : script.length < 2 ^ 63) :
    ∃ bytes, encodeScript keys script = .ok bytes ∧ decodeScript keys bytes = .ok (script, []) := by
  unfold encodeScript
  cases found : shortForm keys script with
  | some _ =>
    obtain ⟨_, _, template, rfl⟩ := exists_template lawful found
    have decoded := template.decodeScriptBody_eq lawful []
    rw [append_nil] at decoded
    exact ⟨_, rfl, by rw [decodeScript, decodeVlq_tag template.tag_lt]; exact decoded⟩
  | none =>
    have fits : script.length + specialScriptCount < 2 ^ 64 := by
      rw [specialScriptCount]
      omega
    have isSize : decodeVlq (vlq false (script.length + specialScriptCount) ++ script)
        "compressed script type" = .ok (script.length + specialScriptCount, script) :=
      decodeVlq_eq_ok.mpr ⟨fits, rfl⟩
    have taken := @takeBytes_eq_ok script script [] _ "compressed script" |>.mpr
      ⟨(Nat.add_sub_cancel (n := script.length) (m := 6)).symm, (append_nil _).symm⟩
    refine ⟨vlq false (script.length + specialScriptCount) ++ script, ?_, ?_⟩
    · rw [checked_of fits, ok_bind, encodeVlq_eq fits]
      rfl
    · rw [decodeScript, isSize, ok_bind]
      exact (decodeScriptBody_raw (le_add_left _ _) script).trans taken

theorem encodeScript_of_decodeScript
    (decoded : decodeScript keys bytes = .ok (script, [])) : encodeScript keys script = .ok bytes ∨
      ((shortForm keys script).isSome ∧ script.length + specialScriptCount < 2 ^ 64 ∧
        bytes = vlq false (script.length + specialScriptCount) ++ script) := by
  obtain ⟨⟨_, rest⟩, isSize, isBody⟩ := bind_eq_ok.mp decoded
  obtain ⟨fits, rfl⟩ := decodeVlq_eq_ok.mp isSize
  rcases of_decodeScriptBody lawful isBody with ⟨_, _, template, rfl, isRest⟩ | ⟨rfl, isScript⟩
  · rw [append_nil] at isRest
    subst isRest
    refine .inl ?_
    rw [encodeScript, template.shortForm_eq lawful, vlq_tag template.tag_lt]
    rfl
  rw [append_nil] at isScript
  subst isScript
  cases found : shortForm keys rest with
  | some _ => exact .inr ⟨rfl, fits, rfl⟩
  | none =>
    refine .inl ?_
    rw [encodeScript, found]
    rw [specialScriptCount, checked_of fits, ok_bind, encodeVlq_eq fits]
    rfl

end

variable (keys : PublicKeys)

def SpellsOutTemplate (bytes : List UInt8) : Prop :=
  ∃ header amount script, header < 2 ^ 64 ∧ amount < 2 ^ 64 ∧ script.length + specialScriptCount < 2 ^ 64 ∧
    bytes = vlq false header ++ (vlq false amount ++ (vlq false (script.length + specialScriptCount) ++ script)) ∧
    (shortForm keys script).isSome

variable {keys}

theorem decode_encodeCompact (lawful : keys.Lawful) {coin : Utxo}
    (money : coin.valueSats ≤ 2_100_000_000_000_000) (height : coin.height < 2 ^ 32)
    (short : coin.scriptPubkey.length < 2 ^ 63) : ∃ bytes, encodeCompact keys coin = .ok bytes ∧
      decodeCompactWithCreationMtp keys bytes coin.creationMtp = .ok { coin with lastTouched := 0 } := by
  obtain ⟨code, isCode⟩ := exists_amountCode coin.valueSats
  have codeFits : code < 2 ^ 64 := by
    have := isCode.code_le
    omega
  obtain ⟨script, isScript, scriptDecoded⟩ := decodeScript_encodeScript lawful short
  have flag : (if coin.isCoinbase then 1 else 0) ≤ 1 := by split <;> omega
  generalize isHeader : coin.height * 2 + (if coin.isCoinbase then 1 else 0) = header
  have headerFits : header < 2 ^ 64 := by omega
  have isHeight : header / 2 = coin.height := by omega
  have isFlag : decide (header % 2 ≠ 0) = coin.isCoinbase := by
    rw [← isHeader]
    cases coin.isCoinbase <;> simp
  refine ⟨vlq false header ++ vlq false code ++ script, ?_, ?_⟩
  · rw [encodeCompact, checked_of (by omega), ok_bind, isHeader, checked_of headerFits, ok_bind,
      encodeVlq_eq headerFits, ok_bind, compressAmount_eq isCode codeFits, ok_bind, encodeVlq_eq codeFits, isScript]
    rfl
  have first := @decodeVlq_eq_ok (vlq false header ++ (vlq false code ++ script)) _ "UTXO header code" _ |>.mpr
    ⟨headerFits, rfl⟩
  have second := @decodeVlq_eq_ok (vlq false code ++ script) _ "compressed amount" _ |>.mpr ⟨codeFits, rfl⟩
  have amount := (decompressAmount_eq_ok codeFits).mpr ⟨isCode, by omega⟩
  rw [append_assoc, decodeCompactWithCreationMtp, first, ok_bind]
  dsimp only
  rw [ensure_of (by omega), ok_bind, second, ok_bind]
  rw [amount, scriptDecoded]
  rw [isHeight, isFlag]
  rfl

theorem encodeCompact_of_decode (lawful : keys.Lawful) {bytes : List UInt8} {creationMtp : Nat} {coin : Utxo}
    (decoded : decodeCompactWithCreationMtp keys bytes creationMtp = .ok coin)
    (shortened : ¬ SpellsOutTemplate keys bytes) : encodeCompact keys coin = .ok bytes := by
  simp only [decodeCompactWithCreationMtp, bind_eq_ok, ensure_eq_ok, exists_const, pure_eq_ok] at decoded
  obtain ⟨⟨header, _⟩, isHeader, height, ⟨code, _⟩, isCode, _, isAmount, ⟨script, _⟩,
    isScript, ended, same⟩ := decoded
  obtain ⟨headerFits, rfl⟩ := decodeVlq_eq_ok.mp isHeader
  obtain ⟨codeFits, rfl⟩ := decodeVlq_eq_ok.mp isCode
  obtain ⟨amountCode, -⟩ := (decompressAmount_eq_ok codeFits).mp isAmount
  subst ended
  subst same
  have flag : header / 2 * 2 + (if decide (header % 2 ≠ 0) then 1 else 0) = header := by
    by_cases even : header % 2 = 0 <;> simp [even] <;> omega
  rcases encodeScript_of_decodeScript lawful isScript with encoded | ⟨template, scriptFits, rfl⟩
  · rw [encodeCompact, checked_of (by dsimp only; omega), ok_bind, flag, checked_of headerFits, ok_bind,
      encodeVlq_eq headerFits, ok_bind, compressAmount_eq amountCode codeFits, ok_bind, encodeVlq_eq codeFits,
      ok_bind, encoded, ok_bind, append_assoc]
    rfl
  · exact absurd ⟨header, code, script, headerFits, codeFits, scriptFits, rfl, template⟩ shortened

theorem safe_decodeCompact (bytes : List UInt8) (creationMtp : Nat) :
    Safe (decodeCompactWithCreationMtp keys bytes creationMtp) := by
  refine (safe_decodeVlq _ _).bind fun header _ => safe_ensure.bind fun _ _ =>
    (safe_decodeVlq _ _).bind fun code isCode => ?_
  have codeFits := (decodeVlq_eq_ok.mp isCode).1
  refine (safe_decompressAmount codeFits).bind fun valueSats _ => ?_
  have script : Safe (decodeScript keys code.2) :=
    (safe_decodeVlq _ _).bind fun size _ => safe_decodeScriptBody _ _
  exact script.bind fun _ _ => safe_ensure.bind fun _ _ => safe_pure _

/-- Lossless for coins the chain can hold, canonical but for spelled out templates, and decoded
without overflow. -/
theorem compact_lossless_and_canonical (lawful : keys.Lawful) :
    (∀ coin : Utxo, coin.valueSats ≤ 2_100_000_000_000_000 → coin.height < 2 ^ 32 →
      coin.scriptPubkey.length < 2 ^ 63 → ∃ bytes, encodeCompact keys coin = .ok bytes ∧
        decodeCompactWithCreationMtp keys bytes coin.creationMtp = .ok { coin with lastTouched := 0 }) ∧
    (∀ bytes creationMtp coin, decodeCompactWithCreationMtp keys bytes creationMtp = .ok coin →
      ¬ SpellsOutTemplate keys bytes → encodeCompact keys coin = .ok bytes) ∧
    ∀ bytes creationMtp, Safe (decodeCompactWithCreationMtp keys bytes creationMtp) :=
  ⟨fun _ money height short => decode_encodeCompact lawful money height short,
    fun _ _ _ decoded shortened => encodeCompact_of_decode lawful decoded shortened,
    fun bytes creationMtp => safe_decodeCompact bytes creationMtp⟩

def onePair : PublicKeys where
  Point := Bool
  x _ := replicate 32 0
  y odd := replicate 31 0 ++ [if odd then 1 else 0]
  fromSlice bytes :=
    if bytes = 2 :: replicate 32 0 then some false
    else if bytes = 3 :: replicate 32 0 then some true
    else if bytes = 4 :: (replicate 32 0 ++ (replicate 31 0 ++ [0])) then some false
    else if bytes = 4 :: (replicate 32 0 ++ (replicate 31 0 ++ [1])) then some true
    else none

theorem onePair_lawful : onePair.Lawful where
  x_length _ := rfl
  y_length odd := by cases odd <;> rfl
  compressed := by
    intro tag x odd parity size
    have odds : (2 : UInt8) ||| 1 = 3 := by decide
    rcases parity with rfl | rfl <;> cases odd <;> simp [onePair, lowBit, odds, eq_comm]
  uncompressed := by
    intro x y odd xSize ySize
    have split (last : UInt8) : x ++ y = replicate 32 0 ++ (replicate 31 0 ++ [last]) ↔
        x = replicate 32 0 ∧ y = replicate 31 0 ++ [last] :=
      ⟨fun same => append_inj same xSize, fun both => by rw [both.1, both.2]⟩
    have unlike : replicate 31 (0 : UInt8) ++ [1] ≠ replicate 31 0 ++ [0] := by decide
    simp only [onePair]
    cases odd with
    | false =>
      grind
    | true =>
      grind

theorem not_spellsOutTemplate {first second : Nat} {bytes rest script : List UInt8} {tag : UInt8}
    (header : decodeVlq bytes "" = .ok (first, rest))
    (amount : decodeVlq rest "" = .ok (second, tag :: script)) (small : tag.toNat < 6) :
    ¬ SpellsOutTemplate keys bytes := by
  rintro ⟨_, _, _, headerFits, amountFits, scriptFits, rfl, -⟩
  have isHeader := header.symm.trans (decodeVlq_eq_ok.mpr ⟨headerFits, rfl⟩)
  cases isHeader
  have isAmount := amount.symm.trans (decodeVlq_eq_ok.mpr ⟨amountFits, rfl⟩)
  injection isAmount with isAmount
  injection isAmount with _ isScript
  have isSize := (decodeVlq_tag small script "").symm.trans (decodeVlq_eq_ok.mpr ⟨scriptFits, isScript⟩)
  injection isSize with isSize
  injection isSize with isSize
  rw [isSize] at small
  exact absurd small (not_lt.mpr (le_add_left _ _))

def keyCoin (script : List UInt8) : Utxo := ⟨5_000_000_000, 1, true, 0, 1_231_469_665, script⟩

/-- A key of the curve in full, a compressed one off the curve, and the bytes of a coin with the hash of a script. -/
theorem compact_lossless_and_canonical_onePair : (∀ script ∈ [[0x41] ++ onePair.serializeUncompressed true ++ [0xac],
      [0x21, 2] ++ replicate 32 1 ++ [0xac]], ∃ bytes, encodeCompact onePair (keyCoin script) = .ok bytes ∧
        decodeCompactWithCreationMtp onePair bytes 1_231_469_665 = .ok (keyCoin script)) ∧
    encodeCompact onePair ⟨0, 0, false, 0, 7, [0xa9, 0x14] ++ replicate 20 5 ++ [0x87]⟩ =
      .ok ([0, 0, 1] ++ replicate 20 5) := by
  obtain ⟨lossless, canonical, -⟩ := compact_lossless_and_canonical onePair_lawful
  have kept script := lossless (keyCoin script) (show 5_000_000_000 ≤ _ by decide) (show 1 < _ by decide)
  refine ⟨forall_mem_cons.mpr ⟨kept _ (by decide), forall_mem_singleton.mpr (kept _ (by decide))⟩,
    canonical _ 7 _ rfl ?_⟩
  exact @not_spellsOutTemplate _ 0 0 _ _ _ 1 rfl rfl (by decide)

end Rbtc.Chainstate
