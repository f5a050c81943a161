import Mathlib.Algebra.Order.Field.Basic
import Mathlib.Algebra.Group.Prod
import Mathlib.Tactic.Linarith
import Mathlib.Tactic.Ring

/-! Polygonal curves from the origin, flat after their last segment, and how concave ones compare. -/

namespace Rbtc.Foundation

variable {K : Type*} [Field K] [LinearOrder K]

/-- The height at `x` of a curve of segments, each given by its run and its rise. -/
def curve : List (K × K) → K → K
  | [], _ => 0
  | segment :: rest, x =>
    if x ≤ segment.1 then segment.2 * x / segment.1 else segment.2 + curve rest (x - segment.1)

def corners (start : K × K) : List (K × K) → List (K × K)
  | [] => [start]
  | segment :: rest => start :: corners (start + segment) rest

/-- Segments that go on and never fall, each one at most as steep as those before it. -/
structure Concave (segments : List (K × K)) : Prop where
  runs : ∀ segment ∈ segments, 0 < segment.1
  rises : ∀ segment ∈ segments, 0 ≤ segment.2
  bends : segments.Pairwise fun first second => second.2 * first.1 ≤ first.2 * second.1

/-- Through every point of the graph a line that does not fall stays above the graph. -/
def Supported (f : K → K) : Prop :=
  ∀ point, 0 ≤ point → ∃ slope, 0 ≤ slope ∧ ∀ x, 0 ≤ x → f x ≤ f point + slope * (x - point)

theorem Concave.tail {segment : K × K} {rest : List (K × K)} (concave : Concave (segment :: rest)) : Concave rest where
  runs other member := concave.runs other (.tail _ member)
  rises other member := concave.rises other (.tail _ member)
  bends := concave.bends.of_cons

variable {segments : List (K × K)}

theorem curve_zero (runs : ∀ segment ∈ segments, 0 < segment.1) : curve segments 0 = 0 := by
  cases segments with
  | nil => rfl
  | cons segment _ => simp [curve, (runs segment (.head _)).le]

variable [IsStrictOrderedRing K]

theorem curve_le {slope : K} (rising : 0 ≤ slope) (runs : ∀ segment ∈ segments, 0 < segment.1)
    (bound : ∀ segment ∈ segments, segment.2 ≤ slope * segment.1) {x : K} (positive : 0 ≤ x) :
    curve segments x ≤ slope * x := by
  induction segments generalizing x with
  | nil => exact mul_nonneg rising positive
  | cons segment _ ih =>
    have run := runs segment (.head _)
    have rise := bound segment (.head _)
    rw [curve]
    split
    · rw [div_le_iff₀ run]
      nlinarith
    rename_i after
    have later := ih (fun other member => runs other (.tail _ member))
      (fun other member => bound other (.tail _ member)) (sub_nonneg.mpr (not_le.mp after).le)
    linarith

/-- The slope of the line is one of the segments' slopes, or zero after the last one. -/
theorem Concave.exists_slope (concave : Concave segments) {point : K} (positive : 0 ≤ point) :
    ∃ slope, 0 ≤ slope ∧ (∀ steeper, 0 ≤ steeper → (∀ segment ∈ segments, segment.2 ≤ steeper * segment.1) →
        slope ≤ steeper) ∧ ∀ x, 0 ≤ x → curve segments x ≤ curve segments point + slope * (x - point) := by
  induction segments generalizing point with
  | nil => exact ⟨0, le_rfl, fun _ rising _ => rising, fun x _ => by simp [curve]⟩
  | cons segment rest ih =>
    have run := concave.runs segment (.head _)
    have rise := concave.rises segment (.head _)
    have steep : segment.2 / segment.1 * segment.1 = segment.2 := div_mul_cancel₀ _ run.ne'
    have rising : 0 ≤ segment.2 / segment.1 := div_nonneg rise run.le
    have gentler other (member : other ∈ rest) : other.2 ≤ segment.2 / segment.1 * other.1 := by
      rw [div_mul_eq_mul_div, le_div_iff₀ run]
      exact List.rel_of_pairwise_cons concave.bends member
    by_cases within : point ≤ segment.1
    · refine ⟨segment.2 / segment.1, rising, ?_, ?_⟩
      · intro steeper _ bound
        exact (div_le_iff₀ run).mpr (bound segment (.head _))
      intro x nonneg
      have below := curve_le rising concave.runs (List.forall_mem_cons.mpr ⟨steep.ge, gentler⟩) nonneg
      have here : curve (segment :: rest) point = segment.2 / segment.1 * point := by
        rw [curve, if_pos within, div_mul_eq_mul_div]
      linarith
    · have beyond := (not_le.mp within).le
      obtain ⟨slope, nonneg, least, above⟩ := ih concave.tail (sub_nonneg.mpr beyond)
      refine ⟨slope, nonneg, ?_, ?_⟩
      · intro steeper positive bound
        exact least steeper positive fun other member => bound other (.tail _ member)
      intro x started
      have here : curve (segment :: rest) point = segment.2 + curve rest (point - segment.1) := by
        rw [curve, if_neg within]
      rw [curve]
      split
      · next before =>
        -- The line meets the first segment's end at or above the curve and is not steeper.
        have start := above 0 le_rfl
        rw [curve_zero concave.tail.runs] at start
        have flatter := least _ rising gentler
        have ends : segment.2 * x / segment.1 = segment.2 + segment.2 / segment.1 * (x - segment.1) := by
          rw [mul_sub, steep, div_mul_eq_mul_div, add_sub_cancel]
        have : slope * (segment.1 - x) ≤ segment.2 / segment.1 * (segment.1 - x) :=
          mul_le_mul_of_nonneg_right flatter (sub_nonneg.mpr before)
        linarith
      · next after =>
        have later := above (x - segment.1) (sub_nonneg.mpr (not_le.mp after).le)
        linarith

theorem Concave.supported (concave : Concave segments) : Supported (curve segments) := by
  intro point positive
  obtain ⟨slope, rising, -, above⟩ := concave.exists_slope positive
  exact ⟨slope, rising, above⟩

theorem height_of_mem_corners {start corner : K × K}
    (runs : ∀ segment ∈ segments, 0 < segment.1) (member : corner ∈ corners start segments) :
    start.1 ≤ corner.1 ∧ corner.2 = start.2 + curve segments (corner.1 - start.1) := by
  induction segments generalizing start with
  | nil =>
    rw [List.mem_singleton.mp member]
    simp [curve]
  | cons segment _ ih =>
    have run := runs segment (.head _)
    rw [corners, List.mem_cons] at member
    cases member with
    | inl first =>
      rw [first, sub_self, curve_zero runs]
      simp
    | inr later =>
      obtain ⟨farther, height⟩ := ih (fun other inRest => runs other (.tail _ inRest)) later
      rw [Prod.fst_add] at farther height
      refine ⟨by linarith, ?_⟩
      rw [height, Prod.snd_add, curve]
      split
      · next upTo =>
        have meets : corner.1 - start.1 = segment.1 := le_antisymm upTo (by linarith)
        rw [sub_add_eq_sub_sub, meets, sub_self, mul_div_cancel_right₀ _ run.ne',
          curve_zero fun other inRest => runs other (.tail _ inRest)]
        ring
      · rw [sub_add_eq_sub_sub]
        ring

/-- Between two corners the distance to a concave curve is convex, and after the last one it does not grow. -/
theorem exists_corner_above {f : K → K} (supported : Supported f)
    (runs : ∀ segment ∈ segments, 0 < segment.1) {start : K × K} (nonneg : 0 ≤ start.1) {x : K}
    (positive : 0 ≤ x) (above : f (start.1 + x) < start.2 + curve segments x) :
    ∃ corner ∈ corners start segments, f corner.1 < corner.2 := by
  induction segments generalizing start x with
  | nil =>
    obtain ⟨_, _, line⟩ := supported (start.1 + x) (by linarith)
    have before := line start.1 nonneg
    rw [curve] at above
    refine ⟨start, .head _, ?_⟩
    nlinarith
  | cons segment rest ih =>
    have run := runs segment (.head _)
    by_cases within : x ≤ segment.1
    · by_cases already : f start.1 < start.2
      · exact ⟨start, .head _, already⟩
      refine ⟨start + segment, List.mem_cons_of_mem _ (by cases rest <;> exact .head _), ?_⟩
      obtain ⟨_, _, line⟩ := supported (start.1 + x) (by linarith)
      have left := line start.1 nonneg
      have right := line (start.1 + segment.1) (by linarith)
      rw [curve, if_pos within] at above
      have chord : (segment.1 - x) * f start.1 + x * f (start.1 + segment.1) ≤
          segment.1 * f (start.1 + x) := by nlinarith
      have scaled : segment.1 * f (start.1 + x) < segment.1 * start.2 + segment.2 * x := by
        have := mul_lt_mul_of_pos_left above run
        rwa [mul_add, mul_div_cancel₀ _ run.ne'] at this
      by_contra notAbove
      simp only [Prod.fst_add, Prod.snd_add] at notAbove already
      nlinarith
    · have farther : 0 ≤ (start + segment).1 := add_nonneg nonneg run.le
      have onward : f ((start + segment).1 + (x - segment.1)) < (start + segment).2 + curve rest (x - segment.1) := by
        rw [curve, if_neg within] at above
        rwa [Prod.fst_add, Prod.snd_add, add_assoc, add_assoc, add_sub_cancel]
      obtain ⟨corner, member, higher⟩ := ih (fun other inRest => runs other (.tail _ inRest))
        farther (sub_nonneg.mpr (not_le.mp within).le) onward
      exact ⟨corner, .tail _ member, higher⟩

end Rbtc.Foundation
