import Mathlib.Data.List.Nodup

/-! Lineages: root-to-node paths of a parent-linked family of nodes, indexed by depth. -/

namespace Rbtc.Foundation

open List Option

variable {κ ν : Type} {parent : ν → κ} {depth : ν → Nat}

/-- Every entry of the path is a node whose depth is its index and whose parent is the entry
before it. -/
structure Lineage (nodes : κ → Option ν) (parent : ν → κ) (depth : ν → Nat) (path : List κ) : Prop where
  entry : ∀ index key, path[index]? = some key → ∃ node, nodes key = some node ∧ depth node = index ∧
      ∀ before, index = before + 1 → path[before]? = some (parent node)

namespace Lineage

variable {nodes nodes' : κ → Option ν} {path path' : List κ}

theorem nil : Lineage nodes parent depth [] := ⟨fun index key => by simp⟩

variable {key : κ} {node : ν} {index : Nat}

theorem getElem?_of_take {count : Nat} (found : (path.take count)[index]? = some key) :
    index < count ∧ path[index]? = some key := by
  rw [List.getElem?_take] at found
  split at found
  · next inside => exact ⟨inside, found⟩
  · cases found

section
variable (lineage : Lineage nodes parent depth path)
include lineage

theorem snoc (found : nodes key = some node) (deeper : depth node = path.length)
    (linked : ∀ before, path.length = before + 1 → path[before]? = some (parent node)) :
    Lineage nodes parent depth (path ++ [key]) := by
  refine ⟨fun index other atIndex => ?_⟩
  rcases Nat.lt_trichotomy index path.length with inside | last | outside
  · rw [getElem?_append_left inside] at atIndex
    obtain ⟨ancestor, known, atDepth, previous⟩ := lineage.entry index other atIndex
    refine ⟨ancestor, known, atDepth, fun before step => ?_⟩
    rw [getElem?_append_left (by omega)]
    exact previous before step
  · subst last
    simp only [getElem?_concat_length, some.injEq] at atIndex
    subst atIndex
    refine ⟨node, found, deeper, fun before step => ?_⟩
    rw [getElem?_append_left (by omega)]
    exact linked before step
  · rw [getElem?_eq_none (by simp; omega)] at atIndex
    cases atIndex

theorem take (count : Nat) : Lineage nodes parent depth (path.take count) := by
  refine ⟨fun index key atIndex => ?_⟩
  obtain ⟨inside, atIndex⟩ := getElem?_of_take atIndex
  obtain ⟨node, found, atDepth, previous⟩ := lineage.entry index key atIndex
  refine ⟨node, found, atDepth, fun before step => ?_⟩
  rw [getElem?_take_of_lt (by omega)]
  exact previous before step

theorem mono
    (extended : ∀ key node, nodes key = some node → nodes' key = some node) : Lineage nodes' parent depth path := by
  refine ⟨fun index key atIndex => ?_⟩
  obtain ⟨node, found, rest⟩ := lineage.entry index key atIndex
  exact ⟨node, extended key node found, rest⟩

end

/-- Below a known entry, a path of a larger family stays in a smaller one that is closed under
parents. -/
theorem restrict (lineage : Lineage nodes' parent depth path)
    (extended : ∀ key node, nodes key = some node → nodes' key = some node)
    (closed : ∀ key node, nodes key = some node → 0 < depth node →
      ∃ ancestor, nodes (parent node) = some ancestor) (atIndex : path[index]? = some key)
    (known : nodes key = some node) : Lineage nodes parent depth (path.take (index + 1)) := by
  -- Descending from `index`, every entry is known to the smaller family.
  have knownBelow : ∀ distance below, below + distance = index → ∀ entry,
      path[below]? = some entry → ∃ ancestor, nodes entry = some ancestor := by
    intro distance
    induction distance with
    | zero =>
      intro below reached entry atBelow
      obtain rfl : below = index := by omega
      exact ⟨node, by rw [← mem_unique atIndex atBelow]; exact known⟩
    | succ _ ih =>
      intro below reached entry atBelow
      have longer : below + 1 < path.length := by
        have := (List.getElem_of_getElem? atIndex).1
        omega
      have atNext := getElem?_eq_getElem longer
      obtain ⟨child, childKnown⟩ := ih (below + 1) (by omega) _ atNext
      obtain ⟨_, childFound, _, previous⟩ := lineage.entry _ _ atNext
      obtain rfl := mem_unique (extended _ _ childKnown) childFound
      have linked := previous below rfl
      rw [atBelow, some.injEq] at linked
      rw [linked]
      exact closed _ child childKnown (by omega)
  refine ⟨fun below entry atBelow => ?_⟩
  obtain ⟨_, foundIn, rest⟩ := (lineage.take (index + 1)).entry below entry atBelow
  obtain ⟨inside, atBelow⟩ := getElem?_of_take atBelow
  obtain ⟨ancestor, ancestorKnown⟩ := knownBelow (index - below) below (by omega) entry atBelow
  obtain rfl := mem_unique (extended _ _ ancestorKnown) foundIn
  exact ⟨ancestor, ancestorKnown, rest⟩

variable (lineage : Lineage nodes parent depth path)
include lineage

/-- Two families that agree on their common nodes have one path below a common entry. -/
theorem take_eq (lineage' : Lineage nodes' parent depth path')
    (same : ∀ key node node', nodes key = some node → nodes' key = some node' → node = node')
    (atIndex : path[index]? = some key) (atIndex' : path'[index]? = some key) :
    path.take (index + 1) = path'.take (index + 1) := by
  have agree : ∀ distance below, below + distance = index →
      ∃ entry, path[below]? = some entry ∧ path'[below]? = some entry := by
    intro distance
    induction distance with
    | zero =>
      intro below reached
      obtain rfl : below = index := by omega
      exact ⟨key, atIndex, atIndex'⟩
    | succ _ ih =>
      intro below reached
      obtain ⟨entry, atNext, atNext'⟩ := ih (below + 1) (by omega)
      obtain ⟨node, found, -, previous⟩ := lineage.entry _ _ atNext
      obtain ⟨node', found', -, previous'⟩ := lineage'.entry _ _ atNext'
      obtain rfl := same entry node node' found found'
      exact ⟨parent node, previous below rfl, previous' below rfl⟩
  refine ext_getElem? fun below => ?_
  by_cases inside : below < index + 1
  · obtain ⟨_, left, right⟩ := agree (index - below) below (by omega)
    rw [getElem?_take_of_lt inside, getElem?_take_of_lt inside, left, right]
  · rw [List.getElem?_take, List.getElem?_take, if_neg inside, if_neg inside]

theorem depth_eq (atIndex : path[index]? = some key) (found : nodes key = some node) : depth node = index := by
  obtain ⟨_, found', atDepth, -⟩ := lineage.entry index key atIndex
  rw [mem_unique found found', atDepth]

theorem nodup : path.Nodup := by
  rw [nodup_iff_getElem?_ne_getElem?]
  intro lower upper below inside same
  have atUpper := List.getElem?_eq_getElem inside
  obtain ⟨_, found, _, -⟩ := lineage.entry upper _ atUpper
  have atLower := lineage.depth_eq (same.trans atUpper) found
  omega

theorem unique (lineage' : Lineage nodes parent depth path')
    (last : path.getLast? = some key) (last' : path'.getLast? = some key) : path = path' := by
  rw [List.getLast?_eq_getElem?] at last last'
  obtain ⟨_, found, _, -⟩ := lineage.entry _ _ last
  have atDepth' := lineage'.depth_eq last' found
  have nonempty := (List.getElem_of_getElem? last).1
  have nonempty' := (List.getElem_of_getElem? last').1
  have sameLength : path.length = path'.length := by omega
  rw [← sameLength] at last'
  have shared := lineage.take_eq lineage' (fun _ _ _ found found' => mem_unique found found') last last'
  rwa [take_of_length_le (by omega), take_of_length_le (by omega)] at shared

end Lineage

end Rbtc.Foundation
