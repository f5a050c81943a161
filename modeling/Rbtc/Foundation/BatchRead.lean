import Mathlib.Data.List.Induction

/-! A batch of reads over two layers: the upper layer answers what it can, and the lower one is asked
once for the rest. -/

namespace Rbtc.Foundation

open List

/-- The answers so far, and the keys the lower layer is still to be asked for, each with the position
of its answer. -/
structure BatchRead (κ ν : Type) where
  results : List (κ × Option ν)
  wanted : List κ
  positions : List Nat

namespace BatchRead

variable {κ ν : Type} (upper : κ → Option (Option ν)) (lower : κ → Option ν)

def add (read : BatchRead κ ν) (key : κ) : BatchRead κ ν :=
  match upper key with
  | some answer => { read with results := read.results ++ [(key, answer)] }
  | none =>
    { results := read.results ++ [(key, none)]
      wanted := read.wanted ++ [key]
      positions := read.positions ++ [read.results.length] }

def addAll (keys : List κ) : BatchRead κ ν :=
  keys.foldl (add upper) ⟨[], [], []⟩

def place (results : List (κ × Option ν)) (answer : Nat × Option ν) : List (κ × Option ν) :=
  results.modify answer.1 fun result => (result.1, answer.2)

/-- The results with the answers of the lower layer at their positions. -/
def fill (read : BatchRead κ ν) (answers : List (Option ν)) : List (κ × Option ν) :=
  (read.positions.zip answers).foldl place read.results

theorem place_append {results : List (κ × Option ν)} {answer : Nat × Option ν} (inside : answer.1 < results.length)
    (last : κ × Option ν) : place (results ++ [last]) answer = place results answer ++ [last] := by
  obtain ⟨position, found⟩ := answer
  unfold place
  induction results generalizing position with
  | nil => cases inside
  | cons _ _ ih =>
    cases position with
    | zero => rfl
    | succ _ => simp [ih _ (Nat.lt_of_succ_lt_succ inside)]

theorem foldl_place_append {results : List (κ × Option ν)} {answers : List (Nat × Option ν)}
    (inside : ∀ answer ∈ answers, answer.1 < results.length) (last : κ × Option ν) :
    answers.foldl place (results ++ [last]) = answers.foldl place results ++ [last] := by
  induction answers generalizing results with
  | nil => rfl
  | cons _ _ ih =>
    rw [forall_mem_cons] at inside
    rw [foldl_cons, foldl_cons, place_append inside.1]
    exact ih fun answer member => by simpa [place] using inside.2 answer member

/-- The invariant of the reads: once the lower layer has answered, every key has its answer. -/
structure Answers (keys : List κ) (read : BatchRead κ ν) : Prop where
  length_eq : read.results.length = keys.length
  aligned : read.positions.length = read.wanted.length
  inside : ∀ position ∈ read.positions, position < read.results.length
  filled : read.fill (read.wanted.map lower) = keys.map fun key => (key, (upper key).getD (lower key))

variable {upper lower} {keys : List κ}

theorem Answers.add {read : BatchRead κ ν} (answers : Answers upper lower keys read) (key : κ) :
    Answers upper lower (keys ++ [key]) (read.add upper key) := by
  have inside : ∀ answer ∈ read.positions.zip (read.wanted.map lower), answer.1 < read.results.length :=
    fun answer member => answers.inside _ (of_mem_zip member).1
  have filled : ∀ last, (read.positions.zip (read.wanted.map lower)).foldl place (read.results ++ [last]) =
      (keys.map fun key => (key, (upper key).getD (lower key))) ++ [last] := fun last => by
    rw [foldl_place_append inside, ← answers.filled, fill]
  unfold BatchRead.add
  cases known : upper key with
  | some answer =>
    refine ⟨by simp [answers.length_eq], answers.aligned, fun position member => ?_, ?_⟩
    · exact Nat.lt_of_lt_of_le (answers.inside position member) (by simp)
    · simpa [known, fill] using filled (key, answer)
  | none =>
    refine ⟨by simp [answers.length_eq], by simp [answers.aligned], fun position member => ?_, ?_⟩
    · rcases mem_append.mp member with earlier | last
      · exact Nat.lt_of_lt_of_le (answers.inside position earlier) (by simp)
      · simp [mem_singleton.mp last]
    · rw [fill, map_append, zip_append (by simp [answers.aligned]), foldl_append, filled]
      simp [place, known, answers.length_eq, modify_eq_take_drop]

variable (upper lower) in
theorem answers_addAll (keys : List κ) : Answers upper lower keys (addAll upper keys) := by
  induction keys using reverseRecOn with
  | nil => exact ⟨rfl, rfl, nofun, rfl⟩
  | append_singleton keys key ih =>
    rw [addAll, foldl_append]
    exact ih.add key

end BatchRead

end Rbtc.Foundation
