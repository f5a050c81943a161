import Mathlib.Data.List.Basic
import Mathlib.Data.Nat.Log
import Mathlib.Algebra.Order.Ring.Nat

/-! Trees of hashes joined two by two, level by level, where the last of an odd level is joined with itself. -/

namespace Rbtc.Foundation.HashTree

open List Option

variable {η : Type} {join : η → η → η}

def parents (join : η → η → η) : List η → List η
  | left :: right :: rest => join left right :: parents join rest
  | [last] => [join last last]
  | [] => []

def joinsEqual [DecidableEq η] : List η → Bool
  | left :: right :: rest => decide (left = right) || joinsEqual rest
  | _ => false

def levelAt (join : η → η → η) : Nat → List η → List η
  | 0, level => level
  | height + 1, level => levelAt join height (parents join level)

structure Climbs (join : η → η → η) (level : List η) (height : Nat) (root : η) : Prop where
  top : levelAt join height level = [root]
  below : ∀ lower < height, 1 < (levelAt join lower level).length

def JoinInjective (join : η → η → η) : Prop :=
  ∀ {left right left' right'}, join left right = join left' right' → left = left' ∧ right = right'

theorem length_parents (level : List η) : (parents join level).length = (level.length + 1) / 2 := by
  induction level using parents.induct with
  | case1 _ _ _ ih =>
    rw [parents, length_cons, length_cons, length_cons]
    omega
  | case2 _ => simp [parents]
  | case3 => simp [parents]

theorem levelAt_succ (height : Nat) (level : List η) :
    levelAt join (height + 1) level = parents join (levelAt join height level) := by
  induction height generalizing level with
  | zero => rfl
  | succ _ ih => rw [levelAt, ih, levelAt]

theorem levelAt_add (lower upper : Nat) (level : List η) :
    levelAt join (lower + upper) level = levelAt join upper (levelAt join lower level) := by
  induction lower generalizing level with
  | zero => rw [Nat.zero_add, levelAt]
  | succ _ ih => rw [Nat.succ_add, levelAt, ih, levelAt]

theorem exists_climbs {level : List η} (nonempty : level ≠ []) : ∃ height root, Climbs join level height root := by
  have general : ∀ (size : Nat) (level : List η), level.length ≤ size → level ≠ [] →
      ∃ height root, Climbs join level height root := by
    intro size
    induction size with
    | zero =>
      intro level short nonempty
      exact absurd (length_eq_zero_iff.mp (Nat.le_zero.mp short)) nonempty
    | succ _ ih =>
      intro level short nonempty
      have positive := length_pos_iff.mpr nonempty
      by_cases single : level.length = 1
      · obtain ⟨root, rfl⟩ := length_eq_one_iff.mp single
        exact ⟨0, root, rfl, nofun⟩
      have above := @length_parents _ join level
      obtain ⟨height, root, climbs⟩ := ih (parents join level) (by omega) (length_pos_iff.mp (by omega))
      refine ⟨height + 1, root, climbs.top, fun lower isLower => ?_⟩
      cases lower with
      | zero =>
        rw [levelAt]
        omega
      | succ lower => exact climbs.below lower (Nat.lt_of_succ_lt_succ isLower)
  exact general level.length level le_rfl nonempty

theorem Climbs.height_eq {level : List η} {height : Nat} {root : η} (climbs : Climbs join level height root) :
    height = Nat.clog 2 level.length := by
  induction height generalizing level with
  | zero =>
    have top := climbs.top
    rw [levelAt] at top
    rw [top, length_singleton, Nat.clog_one_right]
  | succ height ih =>
    have several : 1 < level.length := climbs.below 0 (Nat.succ_pos _)
    have above : Climbs join (parents join level) height root :=
      ⟨climbs.top, fun lower isLower => climbs.below (lower + 1) (Nat.succ_lt_succ isLower)⟩
    have half : (level.length + 2 - 1) / 2 = (level.length + 1) / 2 := rfl
    rw [ih above, length_parents, Nat.clog_of_two_le (by decide) several, half]

theorem length_levelAt_mono {shorter longer : List η} (le : shorter.length ≤ longer.length) (height : Nat) :
    (levelAt join height shorter).length ≤ (levelAt join height longer).length := by
  induction height generalizing shorter longer with
  | zero => exact le
  | succ _ ih =>
    refine ih ?_
    rw [length_parents, length_parents]
    omega

variable {level : List η} {height : Nat}

section
variable {other : List η}

theorem head?_of_head?_parents_eq (injective : JoinInjective join)
    (same : (parents join level).head? = (parents join other).head?) : level.head? = other.head? := by
  obtain - | ⟨_, - | ⟨_, _⟩⟩ := level <;> obtain - | ⟨_, - | ⟨_, _⟩⟩ := other <;>
    simp only [parents, head?_nil, head?_cons, some.injEq, reduceCtorEq] at same ⊢
  all_goals exact (injective same).1

theorem eq_of_parents_eq [DecidableEq η] (injective : JoinInjective join) (le : level.length ≤ other.length)
    (same : parents join level = parents join other) : level = other ∨ joinsEqual other = true := by
  induction level using parents.induct generalizing other with
  | case1 _ _ _ ih =>
    obtain - | ⟨_, - | ⟨_, _⟩⟩ := other
    · simp at le
    · simp at le
    rw [parents, parents, cons.injEq] at same
    obtain ⟨rfl, rfl⟩ := injective same.1
    rcases ih (by simpa using le) same.2 with rfl | mutated
    · exact .inl rfl
    · exact .inr (by rw [joinsEqual, mutated, Bool.or_true])
  | case2 _ =>
    obtain - | ⟨_, - | ⟨_, _⟩⟩ := other
    · simp at le
    · rw [parents, parents, cons.injEq] at same
      exact .inl (by rw [(injective same.1).1])
    · rw [parents, parents, cons.injEq] at same
      obtain ⟨rfl, rfl⟩ := injective same.1
      exact .inr (by rw [joinsEqual, decide_eq_true rfl, Bool.true_or])
  | case3 =>
    cases other with
    | nil => exact .inl rfl
    | cons _ _ =>
      have := congrArg length same
      rw [length_parents, length_parents, length_cons, length_nil] at this
      omega

variable (injective : JoinInjective join)
include injective

theorem head?_of_levelAt_eq
    (same : levelAt join height level = levelAt join height other) : level.head? = other.head? := by
  induction height generalizing level other with
  | zero => exact congrArg _ same
  | succ _ ih =>
    exact head?_of_head?_parents_eq injective (ih same)

/-- Of two levels below the same level, the longer one joins equal neighbours or they are the same. -/
theorem eq_of_levelAt_eq [DecidableEq η]
    (le : level.length ≤ other.length) (same : levelAt join height level = levelAt join height other) :
    level = other ∨ ∃ lower < height, joinsEqual (levelAt join lower other) = true := by
  induction height generalizing level other with
  | zero => exact .inl same
  | succ _ ih =>
    have above : (parents join level).length ≤ (parents join other).length := length_levelAt_mono le 1
    rcases ih above same with equal | ⟨lower, isLower, mutated⟩
    · rcases eq_of_parents_eq injective le equal with done | mutated
      · exact .inl done
      · exact .inr ⟨0, Nat.succ_pos _, mutated⟩
    · exact .inr ⟨lower + 1, Nat.succ_lt_succ isLower, mutated⟩

/-- A tree over a level is at least as high as one whose inner nodes do not occur in the level. -/
theorem height_le_of_outside {height' : Nat} {root : η}
    (climbs : Climbs join level height root) (climbs' : Climbs join other height' root)
    (outside : ∀ hash ∈ level, ∀ lower, 1 < (levelAt join lower other).length → hash ∉ levelAt join (lower + 1) other) :
    height' ≤ height := by
  by_contra higher
  obtain ⟨gap, rfl⟩ : ∃ gap, height' = (gap + 1) + height := ⟨height' - height - 1, by omega⟩
  have same : levelAt join height level = levelAt join height (levelAt join (gap + 1) other) := by
    rw [climbs.top, ← levelAt_add, climbs'.top]
  have heads := head?_of_levelAt_eq injective same
  cases isLevel : level with
  | nil =>
    have empty : ∀ height, levelAt join height ([]) = [] := by
      intro height
      induction height with
      | zero => rfl
      | succ _ ih => rw [levelAt, parents, ih]
    have := climbs.top
    rw [isLevel, empty] at this
    cases this
  | cons first _ =>
    rw [isLevel] at heads
    have member : first ∈ levelAt join (gap + 1) other := mem_of_head? heads.symm
    exact outside first (isLevel ▸ mem_cons_self) gap (climbs'.below gap (by omega)) member

end

/-- The node reached from a node at an index by joining it with siblings. -/
def climb (join : η → η → η) : η → Nat → List η → η
  | node, _, [] => node
  | node, index, sibling :: siblings =>
    climb join (if index % 2 = 0 then join node sibling else join sibling node) (index / 2) siblings

variable {node root : η} {index : Nat} {siblings : List η}

theorem climb_append (front back : List η) (node : η) (index : Nat) :
    climb join node index (front ++ back) = climb join (climb join node index front)
    (index / 2 ^ front.length) back := by
  induction front generalizing node index with
  | nil => simp [climb]
  | cons _ _ ih =>
    rw [cons_append, climb, ih, climb, length_cons, Nat.pow_succ', Nat.div_div_eq_div_mul]

theorem exists_climb_eq_join (nonempty : siblings ≠ []) (node : η) (index : Nat) :
    ∃ left right, climb join node index siblings = join left right := by
  induction siblings generalizing node index with
  | nil => exact absurd rfl nonempty
  | cons _ siblings ih =>
    rw [climb]
    cases siblings with
    | nil =>
      split
      · exact ⟨_, _, rfl⟩
      · exact ⟨_, _, rfl⟩
    | cons _ _ => exact ih (by simp) _ _

theorem exists_join_of_mem_parents {hash : η} (member : hash ∈ parents join level) :
    ∃ left ∈ level, ∃ right, hash = join left right := by
  induction level using parents.induct with
  | case1 first second _ ih =>
    rw [parents, mem_cons] at member
    rcases member with rfl | later
    · exact ⟨first, mem_cons_self, second, rfl⟩
    · obtain ⟨left, isLeft, right, same⟩ := ih later
      exact ⟨left, mem_cons_of_mem _ (mem_cons_of_mem _ isLeft), right, same⟩
  | case2 last =>
    rw [parents, mem_singleton] at member
    exact ⟨last, mem_singleton_self _, last, member⟩
  | case3 => simp [parents] at member

theorem getElem?_parents (level : List η) (index : Nat) :
    (parents join level)[index]? = level[2 * index]?.map fun left => join left (level[2 * index + 1]?.getD left) := by
  induction level using parents.induct generalizing index with
  | case1 _ _ _ ih =>
    cases index with
    | zero => simp [parents]
    | succ index =>
      rw [parents, getElem?_cons_succ, ih]
      rfl
  | case2 _ =>
    cases index with
    | zero => simp [parents]
    | succ _ => simp [parents]
  | case3 => simp [parents]

section
variable (injective : JoinInjective join)
include injective

theorem mem_of_join_mem_parents {left right : η}
    (member : join left right ∈ parents join level) : left ∈ level ∧ right ∈ level := by
  induction level using parents.induct with
  | case1 _ _ _ ih =>
    rw [parents, mem_cons] at member
    rcases member with same | later
    · obtain ⟨rfl, rfl⟩ := injective same
      simp
    · have := ih later
      exact ⟨by simp [this.1], by simp [this.2]⟩
  | case2 _ =>
    rw [parents, mem_singleton] at member
    obtain ⟨rfl, rfl⟩ := injective member
    simp
  | case3 => simp [parents] at member

theorem mem_of_climb_mem {lower : Nat}
    (member : climb join node index siblings ∈ levelAt join (lower + siblings.length) level) :
    node ∈ levelAt join lower level := by
  induction siblings generalizing node index lower with
  | nil => exact member
  | cons _ _ ih =>
    rw [length_cons, ← Nat.add_assoc, Nat.add_right_comm] at member
    have above := ih member
    rw [levelAt_succ] at above
    split at above
    · exact (mem_of_join_mem_parents injective above).1
    · exact (mem_of_join_mem_parents injective above).2

/-- A branch to the root of a tree is as long as the tree is high, unless hashes at the bottom are joins. -/
theorem length_eq_of_climb_eq (climbs : Climbs join level height root)
    (bottom : ∀ hash ∈ level, ∀ left right, hash ≠ join left right) (isBottom : ∀ left right, node ≠ join left right)
    (reaches : climb join node index siblings = root) : siblings.length = height := by
  have top : root ∈ levelAt join height level := by
    rw [climbs.top]
    exact mem_singleton_self _
  rcases Nat.lt_trichotomy siblings.length height with short | same | long
  · exfalso
    obtain ⟨gap, isGap⟩ : ∃ gap, height = gap + 1 + siblings.length := ⟨height - siblings.length - 1, by omega⟩
    rw [isGap, ← reaches] at top
    have inner := mem_of_climb_mem injective top
    rw [levelAt_succ] at inner
    obtain ⟨left, -, right, isJoin⟩ := exists_join_of_mem_parents inner
    exact isBottom left right isJoin
  · exact same
  · exfalso
    have split : siblings = siblings.take (siblings.length - height) ++ siblings.drop (siblings.length - height) :=
      (take_append_drop ..).symm
    have rest : (siblings.drop (siblings.length - height)).length = height := by
      rw [length_drop]
      omega
    rw [split, climb_append] at reaches
    rw [← reaches] at top
    have low := @mem_of_climb_mem _ join level _ _ _ injective 0 (by rw [rest, Nat.zero_add]; exact top)
    obtain ⟨left, right, isJoin⟩ := @exists_climb_eq_join _ join (siblings.take (siblings.length - height))
      (by rw [← length_pos_iff, length_take]; omega) node index
    exact bottom _ low left right isJoin

/-- A branch that leads from an index of the bottom to the root begins with the hash there. -/
theorem getElem?_of_climb {lower : Nat} (inside : index < (levelAt join lower level).length)
    (reaches : (levelAt join (lower + siblings.length) level)[index / 2 ^ siblings.length]? =
      some (climb join node index siblings)) : (levelAt join lower level)[index]? = some node := by
  induction siblings generalizing node index lower with
  | nil =>
    rw [length_nil, Nat.pow_zero, Nat.div_one] at reaches
    exact reaches
  | cons _ _ ih =>
    rw [length_cons, ← Nat.add_assoc, Nat.add_right_comm, Nat.pow_succ', ← Nat.div_div_eq_div_mul] at reaches
    have inside' : index / 2 < (levelAt join (lower + 1) level).length := by
      rw [levelAt_succ, length_parents]
      omega
    have above := ih inside' reaches
    rw [levelAt_succ, getElem?_parents, map_eq_some_iff] at above
    obtain ⟨_, isLeft, isJoin⟩ := above
    rcases Nat.mod_two_eq_zero_or_one index with even | odd
    · rw [if_pos even] at isJoin
      rw [← (injective isJoin).1, ← isLeft]
      congr 1
      omega
    · rw [if_neg (by omega)] at isJoin
      rw [← (injective isJoin).2]
      have same : 2 * (index / 2) + 1 = index := by omega
      rw [same, getElem?_eq_getElem inside, getD_some]

end

def branchOf (join : η → η → η) : Nat → List η → Nat → List η
  | 0, _, _ => []
  | height + 1, level, index =>
    ((if index % 2 = 0 then level[index + 1]? else level[index - 1]?).or level[index]?).toList ++
      branchOf join height (parents join level) (index / 2)

theorem climb_branchOf (top : levelAt join height level = [root]) (isNode : level[index]? = some node) :
    climb join node index (branchOf join height level index) = root ∧
      (branchOf join height level index).length = height ∧ index < 2 ^ height := by
  induction height generalizing level node index with
  | zero =>
    rw [levelAt] at top
    rw [top] at isNode
    cases index with
    | zero =>
      cases isNode
      exact ⟨rfl, rfl, Nat.one_pos⟩
    | succ index => cases isNode
  | succ _ ih =>
    have parent : ∃ sibling, ((if index % 2 = 0 then level[index + 1]? else level[index - 1]?).or level[index]?) =
        some sibling ∧ (parents join level)[index / 2]? =
          some (if index % 2 = 0 then join node sibling else join sibling node) := by
      rw [getElem?_parents]
      rcases Nat.mod_two_eq_zero_or_one index with even | odd
      · have same : 2 * (index / 2) = index := by omega
        rw [if_pos even, same, isNode]
        cases level[index + 1]? with
        | none => exact ⟨node, rfl, by rw [if_pos even]; rfl⟩
        | some sibling => exact ⟨sibling, rfl, by rw [if_pos even]; rfl⟩
      have odd' : ¬ index % 2 = 0 := by omega
      have before : 2 * (index / 2) = index - 1 := by omega
      have inside := (List.getElem_of_getElem? isNode).1
      have isSibling := getElem?_eq_getElem (show index - 1 < level.length by omega)
      refine ⟨_, by rw [if_neg odd', isSibling, some_or], ?_⟩
      have after : index - 1 + 1 = index := by omega
      rw [if_neg odd', before, isSibling, map_some, after, isNode, getD_some]
    obtain ⟨_, isSibling, isParent⟩ := parent
    obtain ⟨reaches, length, _⟩ := ih top isParent
    rw [branchOf, isSibling, toList_some, singleton_append]
    refine ⟨reaches, by rw [length_cons, length], ?_⟩
    omega

/-- A level that is not a power of two long has a branch to its root from an index beyond its end. -/
theorem exists_branch_beyond (climbs : Climbs join level height root) (uneven : ¬ ∃ power, level.length = 2 ^ power) :
    ∃ node ∈ level, ∃ index siblings, siblings.length = height ∧ index < 2 ^ height ∧ level.length ≤ index ∧
      climb join node index siblings = root := by
  induction height generalizing level with
  | zero =>
    have top := climbs.top
    rw [levelAt] at top
    exact absurd ⟨0, by rw [top]; rfl⟩ uneven
  | succ height ih =>
    have top : levelAt join height (parents join level) = [root] := climbs.top
    rcases Nat.mod_two_eq_zero_or_one level.length with even | odd
    · have above : Climbs join (parents join level) height root :=
        ⟨top, fun lower isLower => climbs.below (lower + 1) (Nat.succ_lt_succ isLower)⟩
      have half := @length_parents _ join level
      have stillUneven : ¬ ∃ power, (parents join level).length = 2 ^ power := by
        rintro ⟨power, _⟩
        refine uneven ⟨power + 1, ?_⟩
        omega
      obtain ⟨_, member, index, siblings, length, _, _, reaches⟩ := ih above stillUneven
      obtain ⟨left, isLeft, right, rfl⟩ := exists_join_of_mem_parents member
      refine ⟨left, isLeft, 2 * index, right :: siblings, by rw [length_cons, length], ?_, by omega, ?_⟩
      · omega
      · rw [climb, if_pos (by omega), Nat.mul_div_cancel_left _ (by decide)]
        exact reaches
    · -- the last hash is joined with itself, so it may as well be taken for the right one
      have isLast := getElem?_eq_getElem (show level.length - 1 < level.length by omega)
      have before : 2 * (level.length / 2) = level.length - 1 := by omega
      have after : level.length - 1 + 1 = level.length := by omega
      have isParent : (parents join level)[level.length / 2]? =
          some (join (level[level.length - 1]) (level[level.length - 1])) := by
        rw [getElem?_parents, before, isLast, map_some, after, getElem?_eq_none le_rfl, getD_none]
      obtain ⟨reaches, length, _⟩ := climb_branchOf top isParent
      refine ⟨level[level.length - 1], getElem_mem _, level.length,
        level[level.length - 1] :: branchOf join height (parents join level) (level.length / 2),
        by rw [length_cons, length], ?_, le_rfl, ?_⟩
      · omega
      · rw [climb, if_neg (by omega)]
        exact reaches

end Rbtc.Foundation.HashTree
