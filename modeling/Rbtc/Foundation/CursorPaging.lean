import Mathlib.Data.List.Lex
import Mathlib.Data.List.Sort
import Mathlib.Data.List.TakeWhile

/-! Sorted rows read in pages, each merged from two lists by a comparison of its own. -/

namespace Rbtc.Foundation

open List Foundation

variable {α κ ρ ε : Type} [LinearOrder ρ] {position : α → ρ} {rows left right : List α}

def Ascending (position : α → ρ) (rows : List α) :
    Prop := rows.Pairwise fun lower upper => position lower < position upper

def behind (position : α → ρ) (after : Option ρ) (rows : List α) : List α :=
  rows.filter fun row => ∀ cursor ∈ after, cursor < position row

structure NextIn (position : α → ρ) (rows : List α) (row next : α) : Prop where
  member : next ∈ rows
  above : position row < position next
  least : ∀ other ∈ rows, position row < position other → position next ≤ position other

/-- A comparison that puts every row before the next one of the other list. -/
structure InStep (position : α → ρ) (first : α → α → Bool) (left right : List α) : Prop where
  ofLeft : ∀ row ∈ left, ∀ next, NextIn position right row next → first row next = true
  ofRight : ∀ row ∈ right, ∀ next, NextIn position left row next → first next row = false

/-- Pages read one after another, each behind the last key of the one before, until one is empty. -/
inductive PagesThrough (page : Option κ → Nat → Except ε (List α)) (key : α → κ) :
    Option κ → (Nat → Nat) → List α → Prop
  | done {after : Option κ} {sizes : Nat → Nat} (empty : page after (sizes 0) = .ok []) :
      PagesThrough page key after sizes []
  | more {after : Option κ} {sizes : Nat → Nat} {front rest : List α} {last : α}
      (read : page after (sizes 0) = .ok (front ++ [last]))
      (later : PagesThrough page key (some (key last)) (fun round => sizes (round + 1)) rest) :
      PagesThrough page key after sizes (front ++ [last] ++ rest)

variable {row : α} {first : α → α → Bool}

section
variable {after : Option ρ}

theorem mem_behind : row ∈ behind position after rows ↔ row ∈ rows ∧ ∀ cursor ∈ after, cursor < position row := by
  simp [behind]

theorem behind_none : behind position none rows = rows := by
  simp [behind]

theorem Ascending.behind (ascending : Ascending position rows) (after : Option ρ) :
    Ascending position (behind position after rows) := ascending.sublist filter_sublist

theorem behind_append {front back : List α} {last : α} (ascending : Ascending position (front ++ last :: back)) :
    behind position (some (position last)) (front ++ last :: back) = back := by
  obtain ⟨-, ascendingBack, below⟩ := pairwise_append.mp ascending
  have above := (pairwise_cons.mp ascendingBack).1
  have none : (front.filter fun row => ∀ cursor ∈ some (position last), cursor < position row) = [] := by
    rw [filter_eq_nil_iff]
    intro row member
    simpa using (below row member last mem_cons_self).le
  have all : (back.filter fun row => ∀ cursor ∈ some (position last), cursor < position row) = back := by
    rw [filter_eq_self]
    intro row member
    simpa using above row member
  rw [behind, filter_append, none, filter_cons_of_neg (by simp), all, nil_append]

theorem dropWhile_eq_behind (ascending : Ascending position rows) {cursor : ρ} {before upTo : α → Bool}
    (isBefore : ∀ row, before row = true ↔ position row < cursor)
    (isUpTo : ∀ row, upTo row = true ↔ position row ≤ cursor) :
    (rows.dropWhile before).dropWhile upTo = behind position (some cursor) rows := by
  induction rows with
  | nil => rfl
  | cons row rest ih =>
    obtain ⟨above, ascendingRest⟩ := pairwise_cons.mp ascending
    have later : cursor ≤ position row → behind position (some cursor) rest = rest := by
      intro passed
      rw [behind, filter_eq_self]
      intro other member
      simpa using passed.trans_lt (above other member)
    rcases lt_trichotomy (position row) cursor with below | same | beyond
    · rw [dropWhile_cons_of_pos ((isBefore row).mpr below), ih ascendingRest, behind, behind,
        filter_cons_of_neg (by simpa using below.le)]
    · have stays : rest.dropWhile upTo = rest := by
        rw [dropWhile_eq_self_iff]
        intro nonempty isPassed
        exact absurd ((isUpTo _).mp isPassed) (same ▸ above _ (getElem_mem nonempty)).not_ge
      rw [dropWhile_cons_of_neg (fun below => ((isBefore row).mp below).ne same),
        dropWhile_cons_of_pos ((isUpTo row).mpr same.le), stays, behind, filter_cons_of_neg (by simpa using same.le)]
      exact (later same.ge).symm
    · rw [dropWhile_cons_of_neg (fun below => ((isBefore row).mp below).not_gt beyond),
        dropWhile_cons_of_neg (fun passed => ((isUpTo row).mp passed).not_gt beyond), behind,
        filter_cons_of_pos (by simpa using beyond)]
      exact congrArg _ (later beyond.le).symm

end

section
variable {other : α}

theorem NextIn.cons {next : α} (isNext : NextIn position rows other next) (below : position row < position other) :
    NextIn position (row :: rows) other next where
  member := mem_cons_of_mem _ isNext.member
  above := isNext.above
  least := forall_mem_cons.mpr ⟨fun above => absurd above below.not_gt, isNext.least⟩

theorem InStep.of_cons_right (inStep : InStep position first left (row :: right))
    (below : ∀ other ∈ left, position row < position other) : InStep position first left right where
  ofLeft other member next isNext := inStep.ofLeft other member next (isNext.cons (below other member))
  ofRight other member := inStep.ofRight other (mem_cons_of_mem _ member)

theorem InStep.of_cons_left (inStep : InStep position first (row :: left) right)
    (below : ∀ other ∈ right, position row < position other) : InStep position first left right where
  ofLeft other member := inStep.ofLeft other (mem_cons_of_mem _ member)
  ofRight other member next isNext := inStep.ofRight other member next (isNext.cons (below other member))

theorem NextIn.eq_head {next : α} (isNext : NextIn position (other :: right) row next)
    (ascending : Ascending position (other :: right)) (below : position row < position other) : next = other := by
  rcases mem_cons.mp isNext.member with same | later
  · exact same
  · have above := (pairwise_cons.mp ascending).1 next later
    exact absurd (isNext.least other mem_cons_self below) above.not_ge

section
variable (ascending : Ascending position (other :: right)) (below : position row < position other)
include ascending below

theorem nextIn_head : NextIn position (other :: right) row other where
  member := mem_cons_self
  above := below
  least third member _ := by
    rcases mem_cons.mp member with rfl | later
    · exact le_rfl
    · exact ((pairwise_cons.mp ascending).1 third later).le

theorem Ascending.below_of_lt_head : ∀ third ∈ other :: right, position row < position third :=
  forall_mem_cons.mpr ⟨below, fun third member => below.trans ((pairwise_cons.mp ascending).1 third member)⟩

end

section
variable (ascendingLeft : Ascending position left)
include ascendingLeft

variable (ascendingRight : Ascending position right)
include ascendingRight

section
variable (apart : ∀ row ∈ left, ∀ other ∈ right, position row ≠ position other)
include apart

theorem ascending_merge (inStep : InStep position first left right) : Ascending position (left.merge right first) := by
  induction left generalizing right with
  | nil =>
    rw [nil_merge]
    exact ascendingRight
  | cons row _ ihLeft =>
    induction right with
    | nil =>
      rw [merge_right]
      exact ascendingLeft
    | cons other _ ihRight =>
      obtain ⟨aboveRow, ascendingRest⟩ := pairwise_cons.mp ascendingLeft
      obtain ⟨aboveOther, ascendingOthers⟩ := pairwise_cons.mp ascendingRight
      rw [cons_merge_cons]
      rcases lt_or_gt_of_ne (apart row mem_cons_self other mem_cons_self) with before | after
      · have below := ascendingRight.below_of_lt_head before
        rw [if_pos (inStep.ofLeft row mem_cons_self other (nextIn_head ascendingRight before))]
        refine pairwise_cons.mpr ⟨fun third member => ?_, ?_⟩
        · exact (mem_merge.mp member).elim (aboveRow third) (below third)
        · exact ihLeft ascendingRest ascendingRight (fun third member => apart third (mem_cons_of_mem _ member))
            (inStep.of_cons_left below)
      have below := ascendingLeft.below_of_lt_head after
      have later := inStep.ofRight other mem_cons_self row (nextIn_head ascendingLeft after)
      rw [if_neg (Bool.eq_false_iff.mp later)]
      refine pairwise_cons.mpr ⟨fun third member => ?_, ?_⟩
      · exact (mem_merge.mp member).elim (below third) (aboveOther third)
      · exact ihRight ascendingOthers
          (fun third member fourth isFourth => apart third member fourth (mem_cons_of_mem _ isFourth))
          (inStep.of_cons_right below)

/-- What a merge puts in front compares as first with the next row of the other list. -/
theorem first_of_merge_eq_cons {rest : List α} (merged : left.merge right first = row :: rest)
    (least : ∀ other, other ∈ left ∨ other ∈ right → other = row ∨ position row < position other) :
    (row ∈ left → ∀ next, NextIn position right row next → first row next = true) ∧
      (row ∈ right → ∀ next, NextIn position left row next → first next row = false) := by
  cases left with
  | nil => exact ⟨nofun, fun _ next isNext => absurd isNext.member not_mem_nil⟩
  | cons leftRow _ =>
    cases right with
    | nil =>
      exact ⟨fun _ next isNext => absurd isNext.member not_mem_nil, nofun⟩
    | cons rightRow _ =>
      have separate := apart leftRow mem_cons_self rightRow mem_cons_self
      rw [cons_merge_cons] at merged
      split at merged
      · next chosen =>
        obtain rfl : leftRow = row := (cons.inj merged).1
        refine ⟨fun _ next isNext => ?_, fun member => absurd rfl (apart _ mem_cons_self _ member)⟩
        have below := (least rightRow (.inr mem_cons_self)).resolve_left fun same =>
          separate (congrArg position same.symm)
        rw [isNext.eq_head ascendingRight below]
        exact chosen
      · next chosen =>
        obtain rfl : rightRow = row := (cons.inj merged).1
        refine ⟨fun member => absurd rfl (apart _ member _ mem_cons_self), fun _ next isNext => ?_⟩
        have below := (least leftRow (.inl mem_cons_self)).resolve_left fun same =>
          separate (congrArg position same)
        rw [isNext.eq_head ascendingLeft below]
        exact Bool.eq_false_iff.mpr chosen

end

theorem Ascending.ext (same : ∀ row, row ∈ left ↔ row ∈ right) : left = right := by
  have nodup : ∀ {rows : List α}, Ascending position rows → rows.Nodup := fun ascending =>
    List.Pairwise.imp (fun below equal => below.ne (congrArg position equal)) ascending
  have perm := (perm_ext_iff_of_nodup (nodup ascendingLeft) (nodup ascendingRight)).mpr same
  exact perm.eq_of_pairwise (fun row other _ _ below above => absurd above below.not_gt) ascendingLeft ascendingRight

end

theorem NextIn.of_behind {after : Option ρ} {next : α} (isNext : NextIn position (behind position after rows) row next)
    (above : ∀ cursor ∈ after, cursor < position row) : NextIn position rows row next where
  member := (mem_behind.mp isNext.member).1
  above := isNext.above
  least other member later :=
    isNext.least other (mem_behind.mpr ⟨member, fun cursor isCursor => (above cursor isCursor).trans later⟩) later

theorem InStep.behind (inStep : InStep position first left right) (after : Option ρ) :
    InStep position first (behind position after left) (behind position after right) where
  ofLeft row member next isNext := by
    obtain ⟨isRow, above⟩ := mem_behind.mp member
    exact inStep.ofLeft row isRow next (isNext.of_behind above)
  ofRight row member next isNext := by
    obtain ⟨isRow, above⟩ := mem_behind.mp member
    exact inStep.ofRight row isRow next (isNext.of_behind above)

/-- Merging what is behind a cursor gives what is behind it in the merged rows. -/
theorem merge_behind (ascendingLeft : Ascending position left) (ascendingRight : Ascending position right)
    (apart : ∀ row ∈ left, ∀ other ∈ right, position row ≠ position other) (inStep : InStep position first left right)
    (after : Option ρ) : (behind position after left).merge (behind position after right) first =
      behind position after (left.merge right first) := by
  have merged := ascending_merge ascendingLeft ascendingRight apart inStep
  have part := ascending_merge (ascendingLeft.behind after) (ascendingRight.behind after)
    (fun row member other isOther => apart row (mem_behind.mp member).1 other (mem_behind.mp isOther).1)
    (inStep.behind after)
  refine part.ext (merged.behind after) fun row => ?_
  rw [mem_merge, mem_behind, mem_behind, mem_behind, mem_merge, or_and_right]

end

variable {page : Option κ → Nat → Except ε (List α)} {key : α → κ}

/-- The rows that a cursor has not passed. -/
abbrev unread (rank : κ → ρ) (key : α → κ) (after : Option κ) : List α → List α :=
  behind (fun row => rank (key row)) (after.map rank)

theorem unread_none {rank : κ → ρ} : unread rank key none rows = rows := behind_none

theorem pagesThrough_of_ascending (rank : κ → ρ) (ascending : Ascending (fun row => rank (key row)) rows)
    (reads : ∀ after size, page after size = .ok ((unread rank key after rows).take size))
    {sizes : Nat → Nat} (positive : ∀ round, 0 < sizes round) : PagesThrough page key none sizes rows := by
  have general : ∀ (count : Nat) (front rest : List α) (after : Option κ) (sizes : Nat → Nat), rest.length ≤ count →
      (∀ round, 0 < sizes round) → rows = front ++ rest →
      unread rank key after rows = rest → PagesThrough page key after sizes rest := by
    intro count
    induction count with
    | zero =>
      intro front rest after sizes short positive split isBehind
      rw [length_eq_zero_iff.mp (Nat.le_zero.mp short)] at isBehind ⊢
      exact .done ((reads after _).trans (by rw [isBehind, take_nil]))
    | succ count ih =>
      intro front rest after sizes short positive split isBehind
      rcases eq_nil_or_concat' (rest.take (sizes 0)) with nothing | ⟨init, last, isPage⟩
      · have empty : rest = [] := (take_eq_nil_iff.mp nothing).resolve_left (positive 0).ne'
        rw [empty] at isBehind ⊢
        exact .done ((reads after _).trans (by rw [isBehind, take_nil]))
      have parts : rest = init ++ [last] ++ rest.drop (sizes 0) := by
        rw [← isPage, take_append_drop]
      have whole : rows = (front ++ init) ++ last :: rest.drop (sizes 0) := by
        rw [split]
        nth_rewrite 1 [parts]
        simp
      have shorter : (rest.drop (sizes 0)).length ≤ count := by
        have := positive 0
        rw [length_drop]
        omega
      rw [parts]
      refine .more ((reads after _).trans (by rw [isBehind, isPage])) ?_
      refine ih (front ++ init ++ [last]) _ _ _ shorter (fun round => positive _) (by rw [whole]; simp) ?_
      rw [whole] at ascending ⊢
      exact behind_append ascending
  exact general rows.length [] rows none sizes le_rfl positive rfl behind_none

/-- The rows in step behind a row, and that row in step with what comes next. -/
theorem inStep_of_head {row : α} {after : Option ρ}
    (least : ∀ other, other ∈ behind position after left ∨ other ∈ behind position after right →
      other = row ∨ position row < position other)
    (heads : (row ∈ behind position after left → ∀ next, NextIn position (behind position after right) row next →
        first row next = true) ∧
      (row ∈ behind position after right → ∀ next, NextIn position (behind position after left) row next →
        first next row = false)) (later : InStep position first (behind position (some (position row)) left)
      (behind position (some (position row)) right)) (passed : ∀ cursor ∈ after, cursor < position row) :
    InStep position first (behind position after left) (behind position after right) := by
  have narrow : ∀ {rows : List α} {other next : α}, position row < position other →
      NextIn position (behind position after rows) other next →
      NextIn position (behind position (some (position row)) rows) other next := by
    intro rows other next above isNext
    refine ⟨mem_behind.mpr ⟨(mem_behind.mp isNext.member).1, ?_⟩, isNext.above, fun third member beyond => ?_⟩
    · rintro _ ⟨⟩
      exact above.trans isNext.above
    · refine isNext.least third (mem_behind.mpr ⟨(mem_behind.mp member).1, fun cursor isCursor => ?_⟩) beyond
      exact (passed cursor isCursor).trans (above.trans beyond)
  constructor
  · intro other member next isNext
    rcases least other (.inl member) with rfl | above
    · exact heads.1 member next isNext
    · refine later.ofLeft other (mem_behind.mpr ⟨(mem_behind.mp member).1, ?_⟩) next (narrow above isNext)
      rintro _ ⟨⟩
      exact above
  intro other member next isNext
  rcases least other (.inr member) with rfl | above
  · exact heads.2 member next isNext
  · refine later.ofRight other (mem_behind.mpr ⟨(mem_behind.mp member).1, ?_⟩) next (narrow above isNext)
    rintro _ ⟨⟩
    exact above

theorem eq_cons_of_take_one {front : List α} {last : α} (taken : rows.take 1 = front ++ [last]) :
    front = [] ∧ ∃ rest, rows = last :: rest := by
  cases rows with
  | nil => simp at taken
  | cons _ rest =>
    cases front with
    | nil => exact ⟨rfl, rest, by rw [(cons.inj taken).1]⟩
    | cons _ _ => simp at taken

/-- Pages of one row that go through all rows in order show the comparison in step. -/
theorem inStep_of_pagesThrough (rank : κ → ρ) (ascendingLeft : Ascending (fun row => rank (key row)) left)
    (ascendingRight : Ascending (fun row => rank (key row)) right)
    (apart : ∀ row ∈ left, ∀ other ∈ right, rank (key row) ≠ rank (key other))
    (reads : ∀ after, page after 1 = .ok (((unread rank key after left).merge
      (unread rank key after right) first).take 1))
    {after : Option κ} {visited : List α} (pages : PagesThrough page key after (fun _ => 1) visited)
    (ascending : Ascending (fun row => rank (key row)) visited)
    (members : ∀ row, row ∈ visited ↔ row ∈ unread rank key after left ∨
      row ∈ unread rank key after right) :
    InStep (fun row => rank (key row)) first (unread rank key after left)
      (unread rank key after right) := by
  generalize isSizes : (fun _ => 1) = sizes at pages
  induction pages with
  | done _ => exact ⟨fun row member => absurd ((members row).mpr (.inl member)) not_mem_nil,
      fun row member => absurd ((members row).mpr (.inr member)) not_mem_nil⟩
  | @more after _ _ _ last read later ih =>
    subst isSizes
    rw [reads] at read
    obtain ⟨rfl, _, isMerged⟩ := eq_cons_of_take_one (Except.ok.inj read)
    rw [nil_append, singleton_append] at ascending members
    obtain ⟨above, ascendingRest⟩ := pairwise_cons.mp ascending
    have least : ∀ other, other ∈ unread rank key after left ∨
        other ∈ unread rank key after right →
        other = last ∨ rank (key last) < rank (key other) := by
      intro other member
      rcases mem_cons.mp ((members other).mpr member) with same | later
      · exact .inl same
      · exact .inr (above other later)
    have passed : ∀ cursor ∈ after.map rank, cursor < rank (key last) := by
      rcases (members last).mp mem_cons_self with member | member
      · exact (mem_behind.mp member).2
      · exact (mem_behind.mp member).2
    have heads := first_of_merge_eq_cons (ascendingLeft.behind (after.map rank))
      (ascendingRight.behind (after.map rank))
      (fun row member other isOther => apart row (mem_behind.mp member).1 other (mem_behind.mp isOther).1)
        isMerged least
    refine inStep_of_head least heads (ih ascendingRest (fun row => ?_) rfl) passed
    have beyond : ∀ {rows : List α}, row ∈ unread rank key (some (key last)) rows ↔
        row ∈ unread rank key after rows ∧ rank (key last) < rank (key row) := by
      simp only [mem_behind, Option.map_some, Option.mem_some_iff, forall_eq']
      exact ⟨fun ⟨member, later⟩ => ⟨⟨member, fun cursor isCursor => (passed cursor isCursor).trans later⟩, later⟩,
        fun ⟨⟨member, _⟩, later⟩ => ⟨member, later⟩⟩
    rw [beyond, beyond, ← or_and_right, ← members row, mem_cons]
    constructor
    · exact fun member => ⟨.inr member, above row member⟩
    · rintro ⟨rfl | member, later⟩
      · exact absurd later (lt_irrefl _)
      · exact member

end Rbtc.Foundation
