import Rbtc.Chainstate.ChainStore

/-! The spent-age histogram of a chain store: spent coins per age, over a range of blocks. -/

namespace Rbtc.Chainstate

open Foundation Bitcoin Table List

/-- The rows per age, and the heights of the first and the last block they cover. -/
@[ext] structure SpentAges where
  rows : Table Nat Nat
  startHeight : Option Nat
  endHeight : Option Nat
  deriving DecidableEq

structure SpentAgeHistogram where
  startHeight : Option Nat
  endHeight : Option Nat
  samples : Nat
  rows : List (Nat × Nat)
  deriving DecidableEq, Repr

def spentHeights (blocks : List (Nat × List UtxoUndo)) : List (Nat × Nat) :=
  blocks.flatMap fun block => (block.2.flatMap UtxoUndo.spent).map fun entry =>
    (block.1, entry.2.height)

def spentAge (heights : Nat × Nat) : Nat := heights.1 - heights.2

def countSpentAge (counts : Table Nat Nat) (heights : Nat × Nat) : Except UtxoError (Table Nat Nat) := do
  ensure (heights.2 ≤ heights.1) (.malformed "spent coin height exceeds block")
  let count ← require (checkedAdd 64 ((counts.lookup (spentAge heights)).getD 0) 1)
    (.malformed "spent-age sample overflow")
  return counts.insert (spentAge heights) count

def spentAgeCounts (blocks : List (Nat × List UtxoUndo)) : Except UtxoError (Table Nat Nat) :=
  foldOutcome countSpentAge ∅ (spentHeights blocks)

variable (ages : SpentAges)

def coverSpentAges (firstHeight lastHeight : Nat) : Except UtxoError SpentAges :=
  match ages.startHeight, ages.endHeight with
  | none, none => .ok { ages with startHeight := some firstHeight, endHeight := some lastHeight }
  | some _, some previousEnd => do
      ensure (checkedAdd 32 previousEnd 1 = some firstHeight)
        (.malformed "spent-age histogram coverage is not contiguous")
      return { ages with endHeight := some lastHeight }
  | _, _ => .error (.malformed "spent-age histogram coverage is not contiguous")

def addSpentAge (current : Option Nat) (increment : Nat) : Except UtxoError (Option Nat) := do
  let updated ← require (checkedAdd 64 (current.getD 0) increment)
    (.malformed "spent-age histogram overflow")
  return some updated

def connectSpentAges (counts : Table Nat Nat) (firstHeight lastHeight : Nat) :
    Except UtxoError SpentAges := do
  let covered ← coverSpentAges ages firstHeight lastHeight
  let rows ← foldOutcome (alterWith addSpentAge) covered.rows (sortedEntries counts)
  return { covered with rows }

def subtractSpentAge (current : Option Nat) (decrement : Nat) : Except UtxoError (Option Nat) := do
  let count ← require current (.malformed "missing spent-age histogram row")
  ensure (decrement ≤ count) (.malformed "spent-age histogram underflow")
  return if count - decrement = 0 then none else some (count - decrement)

/-- A store without coverage has no rows to subtract from; the last covered block takes the coverage
with it. -/
def disconnectSpentAges (counts : Table Nat Nat) (currentHeight parentHeight : Nat) :
    Except UtxoError SpentAges :=
  match ages.startHeight with
  | none => .ok ages
  | some startHeight => do
      let endHeight ← require ages.endHeight (.malformed "incomplete spent-age metadata")
      ensure (endHeight = currentHeight) (.malformed "spent-age histogram tip does not match disconnect")
      let rows ← foldOutcome (alterWith subtractSpentAge) ages.rows (sortedEntries counts)
      return if currentHeight = startHeight then ⟨∅, none, none⟩
        else { ages with rows, endHeight := some parentHeight }

def sumSpentAge (samples : Nat) (row : Nat × Nat) : Except UtxoError Nat := do
  ensure (row.2 ≠ 0) (.malformed "empty spent-age histogram row")
  require (checkedAdd 64 samples row.2) (.malformed "spent-age sample overflow")

def spentAgeHistogram : Except UtxoError SpentAgeHistogram := do
  ensure (ages.startHeight.isSome = ages.endHeight.isSome) (.malformed "incomplete spent-age metadata")
  let rows := sortedEntries ages.rows
  let samples ← foldOutcome sumSpentAge 0 rows
  ensure (ages.startHeight ≠ none ∨ rows = []) (.malformed "spent-age rows exist without coverage metadata")
  return ⟨ages.startHeight, ages.endHeight, samples, rows⟩

variable {blocks : List (Nat × List UtxoUndo)}

def spentAgesOf (blocks : List (Nat × List UtxoUndo)) : List Nat :=
  (spentHeights blocks).map spentAge

theorem spentAgesOf_append (front back : List (Nat × List UtxoUndo)) :
    spentAgesOf (front ++ back) = spentAgesOf front ++ spentAgesOf back := by
  rw [spentAgesOf, spentHeights, flatMap_append, map_append]
  rfl

section
variable {counts counts' : Table Nat Nat} {count : Nat → Nat}

theorem agesFit_iff : AgesFit blocks ↔ ∀ heights ∈ spentHeights blocks, heights.2 ≤ heights.1 := by
  simp only [spentHeights, mem_flatMap, mem_map]
  constructor
  · rintro fits _ ⟨block, isBlock, entry, ⟨undo, isUndo, isEntry⟩, rfl⟩
    exact fits block isBlock undo isUndo entry isEntry
  · intro fits block isBlock undo isUndo entry isEntry
    exact fits (block.1, entry.2.height) ⟨block, isBlock, entry, ⟨undo, isUndo, isEntry⟩, rfl⟩

theorem countSpentAge_eq_ok {heights : Nat × Nat} (tallies : counts.Tallies count) :
    countSpentAge counts heights = .ok counts' ↔ (heights.2 ≤ heights.1 ∧ count (spentAge heights) + 1 < 2 ^ 64) ∧
        counts' = counts.increment (spentAge heights) := by
  have present : (counts.lookup (spentAge heights)).getD 0 = count (spentAge heights) := by
    rw [tallies]
    split
    · next zero => exact zero.symm
    · rfl
  simp only [countSpentAge, bind_eq_ok, ensure_eq_ok, require_eq_ok, checkedAdd_eq_some, pure_eq_ok,
    increment, present, and_assoc, exists_and_left, exists_eq_left']
  tauto

theorem foldOutcome_countSpentAge {coins : List (Nat × Nat)} (tallies : counts.Tallies count) :
    foldOutcome countSpentAge counts coins = .ok counts' ↔ ((∀ heights ∈ coins, heights.2 ≤ heights.1) ∧
        ∀ age ∈ coins.map spentAge, count age + (coins.map spentAge).count age < 2 ^ 64) ∧ counts'.Tallies fun age =>
        count age + (coins.map spentAge).count age := by
  induction coins generalizing counts count with
  | nil =>
    simp only [foldOutcome_nil, Except.ok.injEq, not_mem_nil, false_implies, implies_true, map_nil, true_and]
    exact ⟨fun same => same ▸ tallies, fun tallies' => tallies.unique tallies'⟩
  | cons coin rest ih =>
    have stepped : (counts.increment (spentAge coin)).Tallies fun age =>
        count age + if age = spentAge coin then 1 else 0 := tallies.increment fun _ => rfl
    have regroup : ∀ age, count age + (spentAge coin :: rest.map spentAge).count age =
        (count age + if age = spentAge coin then 1 else 0) + (rest.map spentAge).count age := by
      intro age
      rw [count_cons]
      simp only [beq_iff_eq, eq_comm (a := spentAge coin)]
      omega
    simp only [foldOutcome_cons, bind_eq_ok, countSpentAge_eq_ok tallies, map_cons, regroup, forall_mem_cons, if_true]
    constructor
    · rintro ⟨_, ⟨⟨fits, bounded⟩, rfl⟩, remaining⟩
      obtain ⟨⟨othersFit, othersBounded⟩, tallies'⟩ := (ih stepped).mp remaining
      refine ⟨⟨⟨fits, othersFit⟩, ?_, othersBounded⟩, tallies'⟩
      by_cases later : spentAge coin ∈ rest.map spentAge
      · simpa using othersBounded _ later
      · rw [count_eq_zero.mpr later]
        exact bounded
    · rintro ⟨⟨⟨fits, othersFit⟩, _, othersBounded⟩, tallies'⟩
      exact ⟨_, ⟨⟨fits, by omega⟩, rfl⟩, (ih stepped).mpr ⟨⟨othersFit, othersBounded⟩, tallies'⟩⟩

theorem spentAgeCounts_eq_ok : spentAgeCounts blocks = .ok counts ↔
      (AgesFit blocks ∧ ∀ age, (spentAgesOf blocks).count age < 2 ^ 64) ∧
        counts.Tallies fun age => (spentAgesOf blocks).count age := by
  rw [spentAgeCounts, foldOutcome_countSpentAge tallies_empty, agesFit_iff]
  simp only [Nat.zero_add]
  refine and_congr (and_congr Iff.rfl ⟨fun bounded age => ?_, fun bounded age _ => bounded age⟩) Iff.rfl
  by_cases listed : age ∈ spentAgesOf blocks
  · exact bounded age listed
  · rw [count_eq_zero.mpr listed]
    exact Nat.two_pow_pos 64

end

variable {ages ages' : SpentAges} {firstHeight lastHeight : Nat}

def SpentAges.Precede (ages : SpentAges) (firstHeight : Nat) : Prop :=
  ages.startHeight = none ∧ ages.endHeight = none ∨
    ages.startHeight ≠ none ∧ ∃ previousEnd ∈ ages.endHeight, checkedAdd 32 previousEnd 1 = some firstHeight

theorem coverSpentAges_eq_ok : coverSpentAges ages firstHeight lastHeight = .ok ages' ↔
      ages.Precede firstHeight ∧ ages' = { ages with
        startHeight := some (ages.startHeight.getD firstHeight)
        endHeight := some lastHeight } := by
  obtain ⟨_, startHeight, endHeight⟩ := ages
  cases startHeight with
  | none => cases endHeight <;> simp [coverSpentAges, SpentAges.Precede, eq_comm]
  | some _ =>
    cases endHeight with
    | none => simp [coverSpentAges, SpentAges.Precede]
    | some _ =>
      simp only [coverSpentAges, bind_eq_ok, ensure_eq_ok, pure_eq_ok, SpentAges.Precede]
      simp [eq_comm]

theorem addSpentAge_eq_ok {current updated : Option Nat} {increment : Nat} :
    addSpentAge current increment = .ok updated ↔
      current.getD 0 + increment < 2 ^ 64 ∧ updated = some (current.getD 0 + increment) := by
  simp only [addSpentAge, bind_eq_ok, require_eq_ok, checkedAdd_eq_some, pure_eq_ok, and_assoc, exists_and_left,
    exists_eq_left']
  exact and_congr_right fun _ => eq_comm

def countBlocks (ages : SpentAges) (blocks : List (Nat × List UtxoUndo)) (firstHeight lastHeight : Nat) :
    Except UtxoError SpentAges := do
  let counts ← spentAgeCounts blocks
  connectSpentAges ages counts firstHeight lastHeight

def SpentAges.Room (rows : Table Nat Nat) (added : List Nat) : Prop :=
  ∀ age ∈ added, (rows.lookup age).getD 0 + added.count age < 2 ^ 64

def SpentAges.counted (ages : SpentAges) (blocks : List (Nat × List UtxoUndo))
    (firstHeight lastHeight : Nat) : SpentAges where
  rows := (spentAgesOf blocks).foldl increment ages.rows
  startHeight := some (ages.startHeight.getD firstHeight)
  endHeight := some lastHeight

theorem counted_rows : (ages.counted blocks firstHeight lastHeight).rows =
    (spentAgesOf blocks).foldl increment ages.rows := rfl

theorem foldOutcome_addSpentAge {rows rows' counts : Table Nat Nat} {added : List Nat}
    (tallies : counts.Tallies fun age => added.count age) :
    foldOutcome (alterWith addSpentAge) rows (sortedEntries counts) = .ok rows' ↔
      SpentAges.Room rows added ∧ rows' = added.foldl increment rows := by
  rw [foldOutcome_alterWith_counts tallies]
  simp only [addSpentAge_eq_ok]
  constructor
  · intro rewritten
    refine ⟨fun age listed => ?_, ext_lookup fun age => ?_⟩
    · have atAge := rewritten age
      rw [if_neg (count_pos_iff.mpr listed).ne'] at atAge
      exact atAge.1
    have atAge := rewritten age
    rw [lookup_foldl_increment]
    split
    · next absent => rwa [if_pos absent] at atAge
    · next listed =>
      rw [if_neg listed] at atAge
      exact atAge.2
  · rintro ⟨room, rfl⟩ age
    rw [lookup_foldl_increment]
    split
    · rfl
    · next listed => exact ⟨room age (count_pos_iff.mp (Nat.pos_of_ne_zero listed)), rfl⟩

theorem countBlocks_eq_ok : countBlocks ages blocks firstHeight lastHeight = .ok ages' ↔
      (AgesFit blocks ∧ ages.Precede firstHeight ∧ SpentAges.Room ages.rows (spentAgesOf blocks)) ∧
        ages' = ages.counted blocks firstHeight lastHeight := by
  simp only [countBlocks, connectSpentAges, bind_eq_ok, pure_eq_ok, coverSpentAges_eq_ok]
  constructor
  · rintro ⟨_, counted, _, ⟨precede, rfl⟩, _, added, rfl⟩
    obtain ⟨⟨fit, -⟩, tallies⟩ := spentAgeCounts_eq_ok.mp counted
    obtain ⟨room, rfl⟩ := (foldOutcome_addSpentAge tallies).mp added
    exact ⟨⟨fit, precede, room⟩, rfl⟩
  rintro ⟨⟨fit, precede, room⟩, rfl⟩
  have bounded : ∀ age, (spentAgesOf blocks).count age < 2 ^ 64 := by
    intro age
    by_cases listed : age ∈ spentAgesOf blocks
    · exact (Nat.le_add_left ..).trans_lt (room age listed)
    · rw [count_eq_zero.mpr listed]
      exact Nat.two_pow_pos 64
  have tallies : ((spentAgesOf blocks).foldl increment ∅).Tallies fun age =>
      (spentAgesOf blocks).count age := by
    simpa using tallies_empty.foldl_increment (spentAgesOf blocks)
  exact ⟨_, spentAgeCounts_eq_ok.mpr ⟨⟨fit, bounded⟩, tallies⟩, _, ⟨precede, rfl⟩, _,
    (foldOutcome_addSpentAge tallies).mpr ⟨room, rfl⟩, rfl⟩

theorem countBlocks_append {front back : List (Nat × List UtxoUndo)} {frontLast backFirst : Nat}
    (adjacent : checkedAdd 32 frontLast 1 = some backFirst) :
    (countBlocks ages front firstHeight frontLast >>= fun middle =>
        countBlocks middle back backFirst lastHeight) = .ok ages' ↔
      countBlocks ages (front ++ back) firstHeight lastHeight = .ok ages' := by
  have reached : (ages.counted front firstHeight frontLast).Precede backFirst :=
    .inr ⟨Option.some_ne_none _, frontLast, rfl, adjacent⟩
  have room : SpentAges.Room ages.rows (spentAgesOf front) ∧
      SpentAges.Room (ages.counted front firstHeight frontLast).rows (spentAgesOf back) ↔
        SpentAges.Room ages.rows (spentAgesOf (front ++ back)) := by
    have raised : ∀ age, ((ages.counted front firstHeight frontLast).rows.lookup age).getD 0 =
        (ages.rows.lookup age).getD 0 + (spentAgesOf front).count age := fun age => by
      rw [counted_rows, lookup_foldl_increment]
      split
      · next absent => rw [absent, Nat.add_zero]
      · rfl
    simp only [SpentAges.Room, raised, spentAgesOf_append, count_append, mem_append]
    constructor
    · rintro ⟨first, second⟩ age listed
      by_cases later : age ∈ spentAgesOf back
      · have := second age later
        omega
      · have := first age (listed.resolve_right later)
        rw [count_eq_zero.mpr later]
        omega
    · intro both
      refine ⟨fun age listed => ?_, fun age listed => ?_⟩
      · have := both age (.inl listed)
        omega
      · have := both age (.inr listed)
        omega
  have fit : AgesFit front ∧ AgesFit back ↔ AgesFit (front ++ back) := forall_mem_append.symm
  have same : (ages.counted front firstHeight frontLast).counted back backFirst lastHeight =
      ages.counted (front ++ back) firstHeight lastHeight := by
    simp [SpentAges.counted, spentAgesOf_append]
  simp only [bind_eq_ok, countBlocks_eq_ok, ← fit, ← room]
  constructor
  · rintro ⟨_, ⟨⟨frontFit, precede, frontRoom⟩, rfl⟩, ⟨backFit, -, backRoom⟩, rfl⟩
    exact ⟨⟨⟨frontFit, backFit⟩, precede, frontRoom, backRoom⟩, same⟩
  · rintro ⟨⟨⟨frontFit, backFit⟩, precede, frontRoom, backRoom⟩, rfl⟩
    exact ⟨_, ⟨⟨frontFit, precede, frontRoom⟩, rfl⟩, ⟨backFit, reached, backRoom⟩, same.symm⟩

end Rbtc.Chainstate
