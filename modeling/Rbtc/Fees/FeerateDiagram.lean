import Rbtc.Foundation.ConcaveCurve
import Mathlib.Data.List.Dedup
import Mathlib.Data.List.Sort
import Mathlib.Algebra.Order.Archimedean.Real.Basic

/-! Feerate diagrams and their comparison, which samples truncated fees at the corners only. -/

namespace Rbtc.Fees

open Foundation List Int

structure FeeFrac where
  fee : Int
  size : Int
  deriving DecidableEq

/-- `FeeFrac::feerate_cmp`; a fraction without size is below all others. -/
def FeeFrac.feerateCmp (self other : FeeFrac) : Ordering :=
  match decide (self.size = 0), decide (other.size = 0) with
  | true, true => .eq
  | true, false => .lt
  | false, true => .gt
  | false, false => compare (self.fee * other.size) (other.fee * self.size)

structure DiagramPoint where
  size : Int
  fee : Int
  deriving DecidableEq

open DiagramPoint

def DiagramPoint.advance (point : DiagramPoint) (chunk : FeeFrac) : DiagramPoint :=
  ⟨point.size + chunk.size, point.fee + chunk.fee⟩

def pointsFrom (cumulative : DiagramPoint) : List FeeFrac → List DiagramPoint
  | [] => [cumulative]
  | chunk :: rest => cumulative :: pointsFrom (cumulative.advance chunk) rest

def diagramPoints (chunks : List FeeFrac) : List DiagramPoint :=
  pointsFrom ⟨0, 0⟩ chunks

/-- The loop of `fee_at` over the windows; the division truncates. -/
def interpolate (size : Int) : List DiagramPoint → Option Int
  | a :: b :: rest =>
    if a.size ≤ size ∧ size ≤ b.size then
      some (if b.size - a.size = 0 then max a.fee b.fee
        else a.fee + ((b.fee - a.fee) * (size - a.size)).tdiv (b.size - a.size))
    else interpolate size (b :: rest)
  | _ => none

def feeAt (points : List DiagramPoint) (size : Int) : Int :=
  match points.head?, points.getLast? with
  | some first, some last =>
    if last.size ≤ size then last.fee else (interpolate size points).getD first.fee
  | _, _ => 0

inductive DiagramComparison where
  | equal
  | better
  | worse
  | incomparable
  deriving DecidableEq

/-- The final match, on `first_ahead` and `second_ahead`. -/
def DiagramComparison.ofAhead : Bool → Bool → DiagramComparison
  | false, false => .equal
  | true, false => .better
  | false, true => .worse
  | true, true => .incomparable

def breakpoints (left right : List DiagramPoint) : List Int :=
  (((left ++ right).map (·.size)).insertionSort (· ≤ ·)).dedup

def compareDiagrams (first second : List FeeFrac) : DiagramComparison :=
  let left := diagramPoints first
  let right := diagramPoints second
  let diff size := feeAt left size - feeAt right size
  .ofAhead ((breakpoints left right).any (0 < diff ·)) ((breakpoints left right).any (diff · < 0))

def DiagramComparison.mirror : DiagramComparison → DiagramComparison
  | .equal => .equal
  | .better => .worse
  | .worse => .better
  | .incomparable => .incomparable

structure Descending (chunks : List FeeFrac) : Prop where
  sizes : ∀ chunk ∈ chunks, 0 < chunk.size
  fees : ∀ chunk ∈ chunks, 0 ≤ chunk.fee
  rates : chunks.Pairwise fun first second => first.feerateCmp second ≠ .lt

noncomputable section

def FeeFrac.segment (chunk : FeeFrac) : ℝ × ℝ := (chunk.size, chunk.fee)

def DiagramPoint.corner (point : DiagramPoint) : ℝ × ℝ := (point.size, point.fee)

def diagram (chunks : List FeeFrac) : ℝ → ℝ :=
  curve (chunks.map FeeFrac.segment)

end

def Exceeds (first second : List FeeFrac) : Prop :=
  ∃ x, 0 ≤ x ∧ diagram second x < diagram first x

variable {chunks : List FeeFrac} {size : Int}

theorem Descending.runs (descending : Descending chunks) : ∀ segment ∈ chunks.map FeeFrac.segment, 0 < segment.1 := by
  intro segment member
  obtain ⟨chunk, inChunks, rfl⟩ := mem_map.mp member
  exact cast_pos.mpr (descending.sizes chunk inChunks)

theorem Descending.concave (descending : Descending chunks) : Concave (chunks.map FeeFrac.segment) where
  runs := descending.runs
  rises := by
    intro segment member
    obtain ⟨chunk, inChunks, rfl⟩ := mem_map.mp member
    exact cast_nonneg (descending.fees chunk inChunks)
  bends := by
    refine pairwise_map.mpr (descending.rates.imp_of_mem ?_)
    intro first second inFirst inSecond rate
    have firstSize := (descending.sizes first inFirst).ne'
    have secondSize := (descending.sizes second inSecond).ne'
    simp only [FeeFrac.feerateCmp, firstSize, secondSize, decide_false, ne_eq, compare_lt_iff_lt, not_lt] at rate
    simp only [FeeFrac.segment]
    exact_mod_cast rate

theorem corner_advance (point : DiagramPoint) (chunk : FeeFrac) :
    (point.advance chunk).corner = point.corner + chunk.segment := by
  simp [corner, advance, FeeFrac.segment]

theorem map_corner_points (chunks : List FeeFrac) (start : DiagramPoint) :
    (pointsFrom start chunks).map corner = corners start.corner (chunks.map FeeFrac.segment) := by
  induction chunks generalizing start with
  | nil => rfl
  | cons _ _ ih =>
    rw [pointsFrom, map_cons, ih, corner_advance]
    rfl

variable {chunk : FeeFrac} {rest : List FeeFrac}

theorem floor_curve_segment (positive : 0 < chunk.size)
    (nonneg : 0 ≤ chunk.fee) (started : 0 ≤ size) (within : size ≤ chunk.size) :
    ⌊diagram (chunk :: rest) size⌋ = (chunk.fee * size).tdiv chunk.size := by
  have here : size ≤ chunk.segment.1 := cast_le.mpr within
  rw [diagram, map_cons, curve, if_pos here, tdiv_eq_ediv_of_nonneg (mul_nonneg nonneg started)]
  have exact : chunk.segment.2 * size / chunk.segment.1 = ((chunk.fee * size : Int)) / (chunk.size) := by
    simp [FeeFrac.segment]
  rw [exact, floor_div_cast_of_nonneg positive.le, floor_intCast]

theorem floor_curve_later (after : ¬ size ≤ chunk.size) :
    ⌊diagram (chunk :: rest) size⌋ = chunk.fee + ⌊diagram rest (size - chunk.size : Int)⌋ := by
  have beyond : ¬ size ≤ chunk.segment.1 := fun le => after (cast_le.mp le)
  rw [diagram, map_cons, curve, if_neg beyond, cast_sub, ← floor_intCast_add]
  rfl

theorem interpolate_pointsFrom (start : DiagramPoint) (chunk : FeeFrac) (rest : List FeeFrac) (size : Int) :
    interpolate size (pointsFrom start (chunk :: rest)) = if start.size ≤ size ∧ size ≤ (start.advance chunk).size then
        some (if (start.advance chunk).size - start.size = 0 then max start.fee (start.advance chunk).fee
          else start.fee + (((start.advance chunk).fee - start.fee) * (size - start.size)).tdiv
            ((start.advance chunk).size - start.size))
      else interpolate size (pointsFrom (start.advance chunk) rest) := by
  cases rest <;> rfl

/-- What both branches of `fee_at` find, for the points from any point of a diagram on. -/
theorem pointsFrom_floor (sizes : ∀ chunk ∈ chunks, 0 < chunk.size)
    (fees : ∀ chunk ∈ chunks, 0 ≤ chunk.fee) (start : DiagramPoint) :
    ∃ last, (pointsFrom start chunks).getLast? = some last ∧ start.size ≤ last.size ∧ ∀ size, 0 ≤ size →
        (last.size ≤ start.size + size → last.fee = start.fee + ⌊diagram chunks size⌋) ∧
        (start.size + size < last.size → interpolate (start.size + size) (pointsFrom start chunks) =
            some (start.fee + ⌊diagram chunks size⌋)) := by
  induction chunks generalizing start with
  | nil =>
    refine ⟨start, rfl, le_rfl, fun size started => ⟨?_, ?_⟩⟩
    · simp [diagram, curve]
    · omega
  | cons chunk rest ih =>
    have positive := sizes chunk (.head _)
    have nonneg := fees chunk (.head _)
    obtain ⟨last, isLast, farther, found⟩ := ih (fun other member => sizes other (.tail _ member))
      (fun other member => fees other (.tail _ member)) (start.advance chunk)
    have next : (start.advance chunk).size = start.size + chunk.size := rfl
    rw [next] at farther found
    refine ⟨last, ?_, by omega, fun size started => ?_⟩
    · rw [pointsFrom, getLast?_cons, isLast]
      rfl
    by_cases within : size ≤ chunk.size
    · rw [floor_curve_segment positive nonneg started within]
      constructor
      · intro reached
        have ends : size = chunk.size := by omega
        have none : ⌊diagram rest ((0 : Int))⌋ = 0 := by
          rw [diagram, cast_zero, curve_zero, floor_zero]
          intro segment member
          obtain ⟨other, inRest, rfl⟩ := mem_map.mp member
          exact cast_pos.mpr (sizes other (.tail _ inRest))
        rw [(found 0 le_rfl).1 (by omega), none, ends, mul_tdiv_cancel _ positive.ne', add_zero]
        rfl
      · intro _
        have window : start.size ≤ start.size + size ∧ start.size + size ≤ (start.advance chunk).size := by
          omega
        have run : (start.advance chunk).size - start.size = chunk.size := by omega
        have rise : (start.advance chunk).fee - start.fee = chunk.fee := add_sub_cancel_left ..
        rw [interpolate_pointsFrom, if_pos window, run, rise, if_neg positive.ne', add_sub_cancel_left]
    · rw [floor_curve_later within]
      have shifted : start.size + size = start.size + chunk.size + (size - chunk.size) := by
        omega
      obtain ⟨atEnd, inside⟩ := found (size - chunk.size) (by omega)
      constructor
      · intro reached
        rw [atEnd (by omega), ← add_assoc]
        rfl
      intro less
      have missed : ¬ (start.size ≤ start.size + size ∧ start.size + size ≤ (start.advance chunk).size) := by
        omega
      rw [interpolate_pointsFrom, if_neg missed, shifted, inside (by omega), ← add_assoc]
      rfl

theorem feeAt_eq_floor (descending : Descending chunks)
    (started : 0 ≤ size) : feeAt (diagramPoints chunks) size = ⌊diagram chunks size⌋ := by
  obtain ⟨last, isLast, -, found⟩ := pointsFrom_floor descending.sizes descending.fees ⟨0, 0⟩
  obtain ⟨atEnd, inside⟩ := found size started
  simp only [zero_add] at atEnd inside
  have first : (diagramPoints chunks).head? = some ⟨0, 0⟩ := by
    cases chunks <;> rfl
  rw [feeAt, first, diagramPoints, isLast]
  by_cases reached : last.size ≤ size
  · exact (if_pos reached).trans (atEnd reached)
  · exact (if_neg reached).trans (by rw [inside (not_le.mp reached), Option.getD_some])

theorem nonneg_of_mem_points (descending : Descending chunks)
    {point : DiagramPoint} (member : point ∈ diagramPoints chunks) :
    0 ≤ point.size ∧ (point.fee : ℝ) = diagram chunks point.size := by
  have corner : point.corner ∈ corners (corner ⟨0, 0⟩) (chunks.map FeeFrac.segment) := by
    rw [← map_corner_points]
    exact mem_map_of_mem member
  obtain ⟨farther, height⟩ := height_of_mem_corners descending.runs corner
  simp only [DiagramPoint.corner, cast_zero, sub_zero, zero_add] at farther height
  exact ⟨cast_nonneg_iff.mp farther, height⟩

theorem mem_breakpoints {left right : List DiagramPoint} :
    size ∈ breakpoints left right ↔ ∃ point, (point ∈ left ∨ point ∈ right) ∧ point.size = size := by
  simp [breakpoints, or_and_right, exists_or]

theorem not_exceeds_iff {first second : List FeeFrac} :
    ¬ Exceeds first second ↔ ∀ x, 0 ≤ x → diagram first x ≤ diagram second x := by
  simp [Exceeds]

section
variable {first second : List FeeFrac} (left : Descending first) (right : Descending second)
include left right

theorem exists_sample_above (exceeds : Exceeds first second) : ∃ point ∈ diagramPoints first,
      feeAt (diagramPoints second) point.size < feeAt (diagramPoints first) point.size := by
  obtain ⟨x, nonneg, above⟩ := exceeds
  have start : diagram second ((corner ⟨0, 0⟩).1 + x) < (corner ⟨0, 0⟩).2 + curve (first.map FeeFrac.segment) x := by
    simpa [corner, diagram] using above
  obtain ⟨corner, member, higher⟩ := exists_corner_above right.concave.supported left.runs
    (by simp [corner]) nonneg start
  rw [← map_corner_points] at member
  obtain ⟨point, inPoints, rfl⟩ := mem_map.mp member
  obtain ⟨started, exact⟩ := nonneg_of_mem_points left inPoints
  refine ⟨point, inPoints, ?_⟩
  -- The fee at a corner is whole, so rounding the other fee down cannot reach it.
  rw [feeAt_eq_floor left started, feeAt_eq_floor right started, ← exact, floor_intCast, floor_lt]
  exact higher

theorem exists_breakpoint_iff :
    (∃ size, (∃ point, (point ∈ diagramPoints first ∨ point ∈ diagramPoints second) ∧ point.size = size) ∧
      feeAt (diagramPoints second) size < feeAt (diagramPoints first) size) ↔ Exceeds first second := by
  constructor
  · rintro ⟨size, ⟨point, member, rfl⟩, ahead⟩
    have started : 0 ≤ point.size := member.elim (fun mine => (nonneg_of_mem_points left mine).1)
        fun other => (nonneg_of_mem_points right other).1
    rw [feeAt_eq_floor left started, feeAt_eq_floor right started] at ahead
    exact ⟨point.size, cast_nonneg started, (floor_lt.mp ahead).trans_le (floor_le _)⟩
  · intro exceeds
    obtain ⟨point, member, ahead⟩ := exists_sample_above left right exceeds
    exact ⟨point.size, ⟨point, .inl member, rfl⟩, ahead⟩

open Classical in
theorem compareDiagrams_eq : compareDiagrams first second =
      .ofAhead (decide (Exceeds first second)) (decide (Exceeds second first)) := by
  have mine := exists_breakpoint_iff left right
  have others := exists_breakpoint_iff right left
  simp only [or_comm] at others
  rw [compareDiagrams]
  congr 1
  · rw [Bool.eq_iff_iff, any_eq_true, decide_eq_true_iff, ← mine]
    simp [mem_breakpoints]
  · rw [Bool.eq_iff_iff, any_eq_true, decide_eq_true_iff, ← others]
    simp [mem_breakpoints]

theorem compareDiagrams_iff :
    (compareDiagrams first second = .equal ↔ ¬ Exceeds first second ∧ ¬ Exceeds second first) ∧
    (compareDiagrams first second = .better ↔ Exceeds first second ∧ ¬ Exceeds second first) ∧
    (compareDiagrams first second = .worse ↔ ¬ Exceeds first second ∧ Exceeds second first) ∧
    (compareDiagrams first second = .incomparable ↔ Exceeds first second ∧ Exceeds second first) := by
  rw [compareDiagrams_eq left right]
  by_cases mine : Exceeds first second <;> by_cases others : Exceeds second first <;>
    simp [mine, others, DiagramComparison.ofAhead]

theorem compareDiagrams_exact :
    (compareDiagrams first second = .equal ↔ ∀ x, 0 ≤ x → diagram first x = diagram second x) ∧
    (compareDiagrams first second = .better ↔
      (∀ x, 0 ≤ x → diagram second x ≤ diagram first x) ∧ Exceeds first second) ∧
    (compareDiagrams first second = .worse ↔ (∀ x, 0 ≤ x → diagram first x ≤ diagram second x) ∧ Exceeds second first) ∧
    (compareDiagrams first second = .incomparable ↔ Exceeds first second ∧ Exceeds second first) ∧
    compareDiagrams second first = (compareDiagrams first second).mirror ∧
    compareDiagrams first first ≠ .better ∧ ∀ third, Descending third →
      (compareDiagrams first second = .equal → compareDiagrams second third = .equal →
        compareDiagrams first third = .equal) ∧
      (compareDiagrams first second = .better → compareDiagrams second third = .better →
        compareDiagrams first third = .better) := by
  obtain ⟨equal, better, worse, incomparable⟩ := compareDiagrams_iff left right
  refine ⟨equal.trans ?_, better.trans ?_, worse.trans ?_, incomparable, ?_, ?_, ?_⟩
  · rw [not_exceeds_iff, not_exceeds_iff]
    constructor
    · intro both x nonneg
      exact le_antisymm (both.1 x nonneg) (both.2 x nonneg)
    · intro same
      exact ⟨fun x nonneg => (same x nonneg).le, fun x nonneg => (same x nonneg).ge⟩
  · rw [not_exceeds_iff, and_comm]
  · rw [not_exceeds_iff]
  · classical
    rw [compareDiagrams_eq left right, compareDiagrams_eq right left]
    cases decide (Exceeds first second) <;> cases decide (Exceeds second first) <;> rfl
  · intro above
    obtain ⟨exceeds, never⟩ := (compareDiagrams_iff left left).2.1.mp above
    exact never exceeds
  · intro third last
    obtain ⟨nextEqual, nextBetter, -⟩ := compareDiagrams_iff right last
    obtain ⟨bothEqual, bothBetter, -⟩ := compareDiagrams_iff left last
    rw [equal, nextEqual, bothEqual, better, nextBetter, bothBetter]
    simp only [not_exceeds_iff]
    constructor
    · rintro ⟨up, down⟩ ⟨nextUp, nextDown⟩
      exact ⟨fun x nonneg => (up x nonneg).trans (nextUp x nonneg),
        fun x nonneg => (nextDown x nonneg).trans (down x nonneg)⟩
    · rintro ⟨⟨x, nonneg, above⟩, never⟩ ⟨-, nextNever⟩
      exact ⟨⟨x, nonneg, (nextNever x nonneg).trans_lt above⟩,
        fun y started => (nextNever y started).trans (never y started)⟩

end

/-- The fees differ by half a satoshi at size one, which the truncated samples there do not show. -/
theorem compareDiagrams_exact_half :
    compareDiagrams [⟨1, 2⟩] [⟨0, 1⟩, ⟨0, 1⟩] = .better ∧ Exceeds [⟨1, 2⟩] [⟨0, 1⟩, ⟨0, 1⟩] :=
  ⟨by decide, ((compareDiagrams_exact ⟨by decide, by decide, by decide⟩
    ⟨by decide, by decide, by decide⟩).2.1.mp (by decide)).2⟩

end Rbtc.Fees
