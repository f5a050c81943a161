import Mathlib.Algebra.BigOperators.Group.List.Basic
import Mathlib.Algebra.GroupWithZero.Nat
import Mathlib.Data.List.Induction
import Mathlib.Data.List.Sort

/-! The longest prefix of a list within a count and a total size, and trimming to it. The upper median of a list,
and windows that take one value in and drop the oldest. -/

namespace Rbtc.Foundation

open List

section
variable {α : Type} (size : α → Nat)

def totalSize (items : List α) : Nat := (items.map size).sum

/-- The longest prefix of at most `count` items and at most `bytes` in all. -/
def fitting (count bytes : Nat) : List α → List α
  | [] => []
  | item :: rest => if 0 < count ∧ size item ≤ bytes then item :: fitting (count - 1) (bytes - size item) rest else []

/-- Drops items from the back while there are too many or they are too large. The list is reversed. -/
def trimReversed (count bytes : Nat) : List α → Nat → List α × Nat
  | [], total => ([], total)
  | last :: rest, total =>
    if count < rest.length + 1 ∨ bytes < total then trimReversed count bytes rest (total - size last)
    else (last :: rest, total)

def trimBack (count bytes : Nat) (items : List α) (total : Nat) : List α × Nat :=
  let kept := trimReversed size count bytes items.reverse total
  (kept.1.reverse, kept.2)

variable {size} {count bytes : Nat}

theorem fitting_spec (items : List α) :
    fitting size count bytes items <+: items ∧ (fitting size count bytes items).length ≤ count ∧
      totalSize size (fitting size count bytes items) ≤ bytes := by
  induction items generalizing count bytes with
  | nil => exact ⟨⟨_, rfl⟩, Nat.zero_le _, Nat.zero_le _⟩
  | cons item _ ih =>
    rw [fitting]
    split
    · next fits =>
      obtain ⟨initial, _, small⟩ := @ih (count - 1) (bytes - size item)
      refine ⟨(prefix_cons_inj _).mpr initial, ?_, ?_⟩
      · rw [length_cons]
        omega
      · simp only [totalSize, map_cons, sum_cons] at small ⊢
        omega
    · exact ⟨⟨_, rfl⟩, Nat.zero_le _, Nat.zero_le _⟩

theorem fitting_of_fits {items : List α} (few : items.length ≤ count) (small : totalSize size items ≤ bytes) :
    fitting size count bytes items = items := by
  induction items generalizing count bytes with
  | nil => rfl
  | cons item rest ih =>
    simp only [totalSize, map_cons, sum_cons, length_cons] at few small
    have restFits : totalSize size rest ≤ bytes - size item := by
      unfold totalSize
      omega
    rw [fitting, if_pos (by omega), ih (by omega) restFits]

theorem fitting_concat_of_exceeds {items : List α} {last : α}
    (exceeds : count < items.length + 1 ∨ bytes < totalSize size (items ++ [last])) :
    fitting size count bytes (items ++ [last]) = fitting size count bytes items := by
  induction items generalizing count bytes with
  | nil =>
    simp only [totalSize, length_nil, nil_append, map_cons, map_nil, sum_singleton] at exceeds
    exact if_neg (by omega)
  | cons _ _ ih =>
    rw [cons_append, fitting, fitting]
    split
    · next fits =>
      rw [ih]
      simp only [totalSize, length_cons, cons_append, map_cons, sum_cons] at exceeds ⊢
      omega
    · rfl

theorem trimBack_eq (items : List α) {total : Nat} (counted : total = totalSize size items) :
    trimBack size count bytes items total =
      (fitting size count bytes items, totalSize size (fitting size count bytes items)) := by
  induction items using reverseRecOn generalizing total with
  | nil => rw [counted]; rfl
  | append_singleton items last ih =>
    have sum : total - size last = totalSize size items := by
      rw [counted]
      simp [totalSize]
    simp only [trimBack, reverse_append, reverse_singleton, singleton_append, trimReversed, length_reverse] at ih ⊢
    split
    · next exceeds =>
      rw [fitting_concat_of_exceeds (counted ▸ exceeds)]
      exact ih sum
    · next within =>
      rw [fitting_of_fits (by simp; omega) (by omega), counted]
      simp

theorem fitting_isInitial (items more : List α) :
    fitting size count bytes items <+: fitting size count bytes (items ++ more) := by
  induction items generalizing count bytes with
  | nil => exact nil_prefix
  | cons _ _ ih =>
    rw [cons_append, fitting, fitting]
    split
    · exact prefix_cons_inj _ |>.mpr ih
    · exact nil_prefix

theorem fitting_append_fitting {narrow small : Nat} (fewer : narrow ≤ count) (smaller : small ≤ bytes)
    (front items : List α) :
    fitting size narrow small (front ++ fitting size count bytes items) =
    fitting size narrow small (front ++ items) := by
  induction front generalizing narrow small with
  | nil =>
    rw [nil_append, nil_append]
    induction items generalizing narrow small count bytes with
    | nil => rfl
    | cons _ _ ih =>
      rw [fitting]
      split
      · rw [fitting, fitting]
        split
        · rw [ih (by omega) (by omega)]
        · rfl
      · next exceeds =>
        rw [fitting, fitting, if_neg (by omega)]
  | cons _ _ ih =>
    rw [cons_append, cons_append, fitting, fitting]
    split
    · rw [ih (by omega) (by omega)]
    · rfl

end

open List

section
variable {α : Type} [LinearOrder α] {bound : α}

def upperMedian (values : List α) (default : α) : α :=
  let sorted := values.insertionSort (· ≤ ·)
  sorted.getD (sorted.length / 2) default

theorem le_getElem_iff_countP {sorted : List α} (ascending : sorted.Pairwise (· ≤ ·)) {index : Nat}
    (inside : index < sorted.length) : bound ≤ sorted[index] ↔ sorted.countP (· < bound) ≤ index := by
  induction sorted generalizing index with
  | nil => cases inside
  | cons first rest ih =>
    obtain ⟨least, ascending⟩ := pairwise_cons.mp ascending
    by_cases below : first < bound
    · rw [countP_cons_of_pos (by simpa using below)]
      cases index with
      | zero => simp [below]
      | succ _ => simpa using ih ascending (Nat.lt_of_succ_lt_succ inside)
    have above : ∀ value ∈ first :: rest, bound ≤ value :=
      forall_mem_cons.mpr ⟨not_lt.mp below, fun value later => (not_lt.mp below).trans (least value later)⟩
    have none : (first :: rest).countP (· < bound) = 0 :=
      countP_eq_zero.mpr fun value member => by simpa using above value member
    simp [none, above _ (getElem_mem inside)]

theorem le_upperMedian_iff {values : List α} (nonempty : values ≠ []) (default : α) :
    bound ≤ upperMedian values default ↔ values.countP (· < bound) ≤ values.length / 2 := by
  have inside : (values.insertionSort (· ≤ ·)).length / 2 < (values.insertionSort (· ≤ ·)).length := by
    have positive := length_pos_iff.mpr nonempty
    rw [length_insertionSort]
    omega
  rw [upperMedian, getD_eq_getElem?_getD, getElem?_eq_getElem inside, Option.getD_some,
    le_getElem_iff_countP (pairwise_insertionSort _ _), (perm_insertionSort _ _).countP_eq, length_insertionSort]

/-- The values within an interval outvote the others. -/
theorem upperMedian_of_majority {values : List α} {low high : α} (default : α)
    (majority : values.length < 2 * values.countP fun value => low ≤ value ∧ value ≤ high) :
    low ≤ upperMedian values default ∧ upperMedian values default ≤ high := by
  have nonempty : values ≠ [] := by
    rintro rfl
    cases majority
  constructor
  · have outside : values.countP (· < low) ≤ values.countP fun value => ¬ decide (low ≤ value ∧ value ≤ high) = true :=
      countP_mono_left fun value _ below => by simp [not_le.mpr (of_decide_eq_true below)]
    have split := length_eq_countP_add_countP (fun value => decide (low ≤ value ∧ value ≤ high)) (l := values)
    rw [le_upperMedian_iff nonempty]
    omega
  by_contra! above
  have below := (le_upperMedian_iff nonempty default).mp le_rfl
  have inside : (values.countP fun value => low ≤ value ∧ value ≤ high) ≤
      values.countP (· < upperMedian values default) :=
    countP_mono_left fun value _ within => decide_eq_true ((of_decide_eq_true within).2.trans_lt above)
  omega

theorem upperMedian_perm {values values' : List α} (same : values.Perm values') (default : α) :
    upperMedian values default = upperMedian values' default := by
  rw [upperMedian, upperMedian, (perm_insertionSort _ _).trans (same.trans (perm_insertionSort (· ≤ ·) _).symm)
    |>.eq_of_pairwise' (pairwise_insertionSort ..) (pairwise_insertionSort ..)]

/-- Taking in a value that is not below the median, and dropping the oldest of a full window, does not lower it. -/
theorem upperMedian_le_push {window : List α} {value default : α} {size : Nat} (nonempty : window ≠ [])
    (full : window.length ≤ size + 1) (notBelow : upperMedian window default ≤ value) :
    upperMedian window default ≤ upperMedian (value :: window.take size) default := by
  have before := (le_upperMedian_iff nonempty default).mp le_rfl
  have kept := (take_sublist size window).countP_le (p := (· < upperMedian window default))
  rw [le_upperMedian_iff (cons_ne_nil _ _), countP_cons_of_neg (by simpa using notBelow), length_cons, length_take]
  omega

end

end Rbtc.Foundation
