import Rbtc.Foundation.NetChange
import Mathlib.Algebra.GroupWithZero.Nat
import Mathlib.Algebra.Order.BigOperators.Group.Finset

/-! Mutations of a keyed table that carry what undoes them. An entry of the base that a run inserts
over without having looked at it is hidden. -/

namespace Rbtc.Foundation

open List Option Prod Finset Table

structure Mutation (κ ν : Type) where
  spent : List (κ × ν)
  created : List (κ × ν)

namespace Mutation

variable {κ ν : Type} [DecidableEq κ] (mutation : Mutation κ ν)

def spentKeys : List κ := mutation.spent.map fst

def createdKeys : List κ := mutation.created.map fst

def apply (table : Table κ ν) : Table κ ν :=
  (table.eraseAll mutation.spentKeys).insertAll mutation.created

def revert (table : Table κ ν) : Table κ ν :=
  (table.eraseAll mutation.createdKeys).insertAll mutation.spent

/-- The mutation removes entries of the table, and inserts under free keys or under keys whose entry
in the base it hides. -/
structure Valid (base : Table κ ν) (hides : Finset κ) (mutation : Mutation κ ν) (table : Table κ ν) : Prop where
  spent_nodup : mutation.spentKeys.Nodup
  spent_present : ∀ entry ∈ mutation.spent, table.lookup entry.1 = some entry.2
  created_nodup : mutation.createdKeys.Nodup
  created_fresh : ∀ key ∈ mutation.createdKeys, key ∉ mutation.spentKeys → key ∉ hides → table.lookup key = none
  hides_created : ∀ key ∈ hides, key ∈ mutation.createdKeys ∧ key ∉ mutation.spentKeys
  hides_present : ∀ key ∈ hides, table.lookup key = base.lookup key ∧ base.lookup key ≠ none

/-- Mutations applied one after another, with the keys hidden before and after. -/
inductive Run (base : Table κ ν) : Finset κ → Table κ ν → List (Mutation κ ν) → Finset κ → Table κ ν → Prop where
  | nil {hidden : Finset κ} {table : Table κ ν} : Run base hidden table [] hidden table
  | cons {hidden hides hidden' : Finset κ} {table final : Table κ ν} {mutation : Mutation κ ν}
      {rest : List (Mutation κ ν)} (valid : mutation.Valid base hides table)
      (apart : Disjoint hidden hides)
      (following : Run base (hidden ∪ hides) (mutation.apply table) rest hidden' final) :
      Run base hidden table (mutation :: rest) hidden' final

def Revertible (table : Table κ ν) : Prop :=
  ∀ key ∈ mutation.spentKeys, table.lookup key = none

/-- The mutations, given last first, can be reverted one after another. -/
def RevertibleAll : Table κ ν → List (Mutation κ ν) → Prop
  | _, [] => True
  | table, mutation :: rest => mutation.Revertible table ∧ RevertibleAll (mutation.revert table) rest

def revertAll (table : Table κ ν) (mutations : List (Mutation κ ν)) : Table κ ν :=
  mutations.foldl (fun current mutation => mutation.revert current) table

/-- A table that shows a run's result, except that every hidden entry is still there. -/
structure Keeps (base : Table κ ν) (hidden : Finset κ) (shown kept : Table κ ν) : Prop where
  absent : ∀ key ∈ hidden, shown.lookup key = none
  stays : ∀ key ∈ hidden, kept.lookup key = base.lookup key
  shows : ∀ key ∉ hidden, kept.lookup key = shown.lookup key

theorem Keeps.eq_shown {base shown kept : Table κ ν} (keeps : Keeps base ∅ shown kept) : kept = shown := by
  ext key : 1
  exact keeps.shows key (notMem_empty key)

section
variable {base table : Table κ ν} {hides : Finset κ} {mutation : Mutation κ ν} {key : κ}
  (valid : mutation.Valid base hides table)
include valid

/-- The keys a mutation hides are those it inserts over an entry it does not remove. -/
theorem Valid.mem_hides (key : κ) :
    key ∈ hides ↔ key ∈ mutation.createdKeys ∧ key ∉ mutation.spentKeys ∧ table.lookup key ≠ none := by
  constructor
  · intro member
    obtain ⟨created, unspent⟩ := valid.hides_created key member
    exact ⟨created, unspent, (valid.hides_present key member).1 ▸ (valid.hides_present key member).2⟩
  · rintro ⟨created, unspent, present⟩
    by_contra shown
    exact present (valid.created_fresh key created unspent shown)

theorem Valid.lookup_spent : (ofList mutation.spent).lookup key =
      if key ∈ mutation.spentKeys then table.lookup key else none := by
  split
  · next member =>
    cases found : (ofList mutation.spent).lookup key with
    | none => exact absurd member (lookup_ofList_eq_none.mp found)
    | some _ => exact (valid.spent_present _ (mem_of_lookup_ofList found)).symm
  · next absent => exact lookup_ofList_eq_none.mpr absent

theorem Valid.lookup_apply (key : κ) : (mutation.apply table).lookup key = ((ofList mutation.created).lookup key).or
      (if key ∈ mutation.spentKeys then none else table.lookup key) := by
  rw [apply, lookup_insertAll _ valid.created_nodup, lookup_eraseAll]

theorem Valid.apply_created (member : key ∈ mutation.createdKeys) : (mutation.apply table).lookup key ≠ none := by
  rw [valid.lookup_apply]
  intro absent
  exact lookup_ofList_eq_none.mp (or_eq_none_iff.mp absent).1 member

theorem Valid.apply_untouched (uncreated : key ∉ mutation.createdKeys) (unspent : key ∉ mutation.spentKeys) :
    (mutation.apply table).lookup key = table.lookup key := by
  rw [valid.lookup_apply, lookup_ofList_eq_none.mpr uncreated, if_neg unspent, none_or]

theorem Valid.lookup_revert (kept : Table κ ν) (key : κ) : (mutation.revert kept).lookup key =
      if key ∈ mutation.spentKeys then table.lookup key
      else if key ∈ mutation.createdKeys then none else kept.lookup key := by
  rw [revert, lookup_insertAll _ valid.spent_nodup, lookup_eraseAll, valid.lookup_spent]
  split
  · next member =>
    obtain ⟨entry, isEntry, rfl⟩ := mem_map.mp member
    rw [valid.spent_present entry isEntry, some_or]
  · rfl

end

section
variable {base : Table κ ν}
  {table final kept : Table κ ν} {hidden hidden' : Finset κ} {mutations : List (Mutation κ ν)}
  {front back : List (Mutation κ ν)}

theorem revertibleAll_append : RevertibleAll table (front ++ back) ↔
      RevertibleAll table front ∧ RevertibleAll (revertAll table front) back := by
  induction front generalizing table with
  | nil => simp [RevertibleAll, revertAll]
  | cons _ _ ih =>
    simp only [cons_append, RevertibleAll, ih, and_assoc]
    rfl

theorem revertAll_append (table : Table κ ν) (front back : List (Mutation κ ν)) :
    revertAll table (front ++ back) = revertAll (revertAll table front) back :=
  foldl_append

/-- Reverting one mutation goes back to a table that keeps the state before it. -/
theorem Keeps.revert {hides : Finset κ} {mutation : Mutation κ ν}
    (keeps : Keeps base hidden (mutation.apply table) kept) (valid : mutation.Valid base hides table)
    (within : hides ⊆ hidden) (present : ∀ key ∈ hidden, base.lookup key ≠ none)
    (revertible : mutation.Revertible kept) : Keeps base hidden table (mutation.revert kept) := by
  have untouched : ∀ key ∈ hidden, key ∉ mutation.createdKeys ∧ key ∉ mutation.spentKeys := by
    intro key member
    refine ⟨fun created => valid.apply_created created (keeps.absent key member), fun spent => ?_⟩
    have absent := revertible key spent
    rw [keeps.stays key member] at absent
    exact present key member absent
  constructor
  · intro key member
    rw [← valid.apply_untouched (untouched key member).1 (untouched key member).2]
    exact keeps.absent key member
  · intro key member
    rw [valid.lookup_revert, if_neg (untouched key member).2, if_neg (untouched key member).1]
    exact keeps.stays key member
  intro key member
  rw [valid.lookup_revert]
  by_cases spent : key ∈ mutation.spentKeys
  · rw [if_pos spent]
  rw [if_neg spent]
  by_cases created : key ∈ mutation.createdKeys
  · rw [if_pos created, valid.created_fresh key created spent fun hides => member (within hides)]
  · rw [if_neg created, keeps.shows key member, valid.apply_untouched created spent]

theorem Run.append {hidden'' : Finset κ} {middle : Table κ ν} (first : Run base hidden table front hidden' middle)
    (second : Run base hidden' middle back hidden'' final) : Run base hidden table (front ++ back) hidden'' final := by
  induction first with
  | nil => exact second
  | cons valid apart _ ih => exact .cons valid apart (ih second)

section
variable (run : Run base hidden table mutations hidden' final)
include run

theorem Run.hidden_mono : hidden ⊆ hidden' := by
  induction run with
  | nil => exact Subset.refl _
  | cons _ _ _ ih => exact Subset.trans subset_union_left ih

theorem Run.hidden_present
    (present : ∀ key ∈ hidden, base.lookup key ≠ none) : ∀ key ∈ hidden', base.lookup key ≠ none := by
  induction run with
  | nil => exact present
  | cons valid _ _ ih =>
    apply ih
    intro key member
    cases mem_union.mp member with
    | inl before => exact present key before
    | inr now => exact (valid.hides_present key now).2

/-- Reverting a whole run goes back to a table that keeps the state before it. -/
theorem Run.revert (present : ∀ key ∈ hidden', base.lookup key ≠ none) (keeps : Keeps base hidden' final kept)
    (revertible : RevertibleAll kept mutations.reverse) :
    Keeps base hidden' table (revertAll kept mutations.reverse) := by
  induction run with
  | nil => exact keeps
  | cons valid _ following ih =>
    rw [reverse_cons, revertibleAll_append] at revertible
    rw [reverse_cons, revertAll_append]
    apply Keeps.revert (ih present keeps revertible.1) valid _ present revertible.2.1
    exact Subset.trans subset_union_right following.hidden_mono

end

/-- A run that starts at its base and can be reverted leaves exactly the base. -/
theorem Run.revertAll_eq (run : Run base ∅ base mutations hidden final)
    (keeps : Keeps base hidden final kept) (revertible : RevertibleAll kept mutations.reverse) :
    revertAll kept mutations.reverse = base := by
  have present := run.hidden_present nofun
  have before := run.revert present keeps revertible
  ext key : 1
  by_cases member : key ∈ hidden
  · exact before.stays key member
  · exact before.shows key member

theorem Run.of_append {hidden'' : Finset κ} {middle : Table κ ν} (first : Run base hidden table front hidden' middle)
    (whole : Run base hidden table (front ++ back) hidden'' final) : Run base hidden' middle back hidden'' final := by
  induction first with
  | nil => exact whole
  | @cons _ hides _ _ _ _ _ valid _ _ ih =>
    cases whole with
    | @cons _ hides' _ _ _ _ _ valid' _ following =>
      obtain rfl : hides = hides' := by
        ext key
        rw [valid.mem_hides, valid'.mem_hides]
      exact ih following

/-- A run that inserts every key once, and no key that is in use, hides nothing and can be reverted. -/
theorem Run.revertible (run : Run base hidden table mutations hidden' final) (nothing : hidden = ∅)
    (nodup : (mutations.flatMap createdKeys).Nodup)
    (fresh : ∀ key ∈ mutations.flatMap createdKeys, table.lookup key = none) :
    hidden' = ∅ ∧ RevertibleAll final mutations.reverse ∧ revertAll final mutations.reverse = table := by
  induction run with
  | nil => exact ⟨nothing, trivial, rfl⟩
  | @cons _ hides _ table final mutation rest valid _ following ih =>
    rw [flatMap_cons, nodup_append'] at nodup
    obtain ⟨-, restNodup, disjoint⟩ := nodup
    rw [flatMap_cons] at fresh
    have created : ∀ key ∈ mutation.createdKeys, table.lookup key = none :=
      fun key member => fresh key (mem_append_left _ member)
    have hidesNothing : hides = ∅ := by
      refine Finset.eq_empty_of_forall_notMem fun key member => ?_
      obtain ⟨isCreated, -, present⟩ := (valid.mem_hides key).mp member
      exact present (created key isCreated)
    obtain ⟨rfl, revertible, reverted⟩ := ih (by rw [nothing, hidesNothing, empty_union]) restNodup fun key member => by
      rw [valid.lookup_apply, lookup_ofList_eq_none.mpr fun isCreated => disjoint isCreated member,
        fresh key (mem_append_right _ member), ite_self, none_or]
    have undone : mutation.Revertible (mutation.apply table) := by
      intro key spent
      have present : (ofList mutation.spent).lookup key = _ := valid.lookup_spent
      rw [if_pos spent] at present
      rw [valid.lookup_apply, if_pos spent, or_none]
      refine lookup_ofList_eq_none.mpr fun isCreated => ?_
      rw [created key isCreated] at present
      exact lookup_ofList_eq_none.mp present spent
    have same : Keeps base ∅ (mutation.apply table) (mutation.apply table) := ⟨nofun, nofun, fun _ _ => rfl⟩
    rw [reverse_cons, revertibleAll_append, revertAll_append, reverted]
    exact ⟨rfl, ⟨revertible, undone, trivial⟩,
      (same.revert valid hidesNothing.subset nofun undone).eq_shown⟩

end

section
variable (amount : κ → ν → Nat)

def carried (entries : List (κ × ν)) : Nat := (entries.map fun entry => amount entry.1 entry.2).sum

def held (table : Table κ ν) (key : κ) : Nat := (table.lookup key).elim 0 (amount key)

theorem total_insert_held (table : Table κ ν) (key : κ) (value : ν) :
    (table.insert key value).total amount + held amount table key = amount key value + table.total amount := by
  unfold held
  cases found : table.lookup key with
  | none => rw [total_insert amount found, elim_none, Nat.add_zero]
  | some old =>
    have absent : (table.erase key).lookup key = none := lookup_erase_self table key
    have same : table.insert key value = (table.erase key).insert key value := by
      ext other : 1
      rw [lookup_insert, lookup_insert, lookup_erase]
      split <;> rfl
    rw [same, total_insert amount absent, ← total_erase amount found,
      elim_some, Nat.add_assoc, Nat.add_comm (amount key old)]

variable {base table : Table κ ν} {hidden : Finset κ}
  {entries : List (κ × ν)} {final kept : Table κ ν} {mutations : List (Mutation κ ν)}

theorem total_eraseAll (nodup : (entries.map fst).Nodup)
    (present : ∀ entry ∈ entries, table.lookup entry.1 = some entry.2) :
    carried amount entries + (table.eraseAll (entries.map fst)).total amount = table.total amount := by
  unfold carried eraseAll
  induction entries generalizing table with
  | nil => simp
  | cons entry rest ih =>
    obtain ⟨notLater, restNodup⟩ := nodup_cons.mp nodup
    obtain ⟨found, restPresent⟩ := forall_mem_cons.mp present
    have below : ∀ other ∈ rest, (table.erase entry.1).lookup other.1 = some other.2 := by
      intro other later
      have distinct : other.1 ≠ entry.1 := fun same => notLater (mem_map.mpr ⟨other, later, same⟩)
      rw [lookup_erase, if_neg distinct]
      exact restPresent other later
    rw [← total_erase amount found, ← ih restNodup below]
    simp [Nat.add_assoc]

theorem total_insertAll (table : Table κ ν) (nodup : (entries.map fst).Nodup) :
    (table.insertAll entries).total amount + ((entries.map fst).map (held amount table)).sum =
      carried amount entries + table.total amount := by
  unfold carried insertAll
  induction entries generalizing table with
  | nil => simp
  | cons entry rest ih =>
    obtain ⟨notLater, restNodup⟩ := nodup_cons.mp nodup
    have below : (rest.map fst).map (held amount (table.insert entry.1 entry.2)) =
        (rest.map fst).map (held amount table) := by
      refine List.map_congr_left fun key later => ?_
      have distinct : key ≠ entry.1 := fun same => notLater (same ▸ later)
      rw [held, Table.lookup_insert, if_neg distinct, held]
    have rest := ih (table.insert entry.1 entry.2) restNodup
    have first := total_insert_held amount table entry.1 entry.2
    rw [below] at rest
    simp only [List.map_cons, List.sum_cons, List.foldl_cons]
    omega

theorem Valid.total_apply {hides : Finset κ} {mutation : Mutation κ ν} (valid : mutation.Valid base hides table) :
    (mutation.apply table).total amount + (∑ key ∈ hides, held amount base key) +
        carried amount mutation.spent = table.total amount + carried amount mutation.created := by
  have removed := total_eraseAll amount valid.spent_nodup valid.spent_present
  have inserted := total_insertAll amount (table.eraseAll mutation.spentKeys) valid.created_nodup
  have hiddenSum : (mutation.createdKeys.map (held amount (table.eraseAll mutation.spentKeys))).sum =
      ∑ key ∈ hides, held amount base key := by
    rw [← sum_toFinset _ valid.created_nodup]
    refine (sum_subset_zero_on_sdiff (fun key member =>
      mem_toFinset.mpr (valid.hides_created key member).1) (fun key rest => ?_)
      fun key member => ?_).symm
    · rw [Finset.mem_sdiff, List.mem_toFinset] at rest
      rw [held, lookup_eraseAll]
      split
      · rfl
      · next unspent => rw [valid.created_fresh key rest.1 unspent rest.2, elim_none]
    · rw [held, held, lookup_eraseAll, if_neg (valid.hides_created key member).2, (valid.hides_present key member).1]
  unfold createdKeys at hiddenSum
  rw [hiddenSum] at inserted
  unfold apply
  unfold spentKeys at removed inserted ⊢
  omega

/-- A run moves the total, hidden entries included, by what its mutations create and spend. -/
theorem Run.total_eq {hidden' : Finset κ} (run : Run base hidden table mutations hidden' final) :
    final.total amount + (∑ key ∈ hidden', held amount base key) +
        (mutations.map fun mutation => carried amount mutation.spent).sum =
      table.total amount + (∑ key ∈ hidden, held amount base key) +
        (mutations.map fun mutation => carried amount mutation.created).sum := by
  induction run with
  | nil => simp
  | cons valid apart _ ih =>
    rw [Finset.sum_union apart] at ih
    have step := valid.total_apply amount
    simp only [List.map_cons, List.sum_cons]
    omega

theorem Keeps.total_le {shown : Table κ ν}
    (keeps : Keeps base hidden shown kept) (present : ∀ key ∈ hidden, base.lookup key ≠ none) :
    kept.total amount ≤ shown.total amount + ∑ key ∈ hidden, held amount base key := by
  have keys : (base.entriesAt hidden.toList).map fst = hidden.toList :=
    map_fst_entriesAt fun key member => present key (mem_toList.mp member)
  have nodup : ((base.entriesAt hidden.toList).map fst).Nodup := by
    rw [keys]
    exact hidden.nodup_toList
  have same : kept = shown.insertAll (base.entriesAt hidden.toList) := by
    ext key : 1
    rw [lookup_insertAll _ nodup, entriesAt, lookup_ofList_entriesOf]
    by_cases member : key ∈ hidden
    · rw [if_pos (mem_toList.mpr member), keeps.stays key member, keeps.absent key member, or_none]
    · rw [if_neg fun listed => member (mem_toList.mp listed), keeps.shows key member, none_or]
  have listed : carried amount (base.entriesAt hidden.toList) = ∑ key ∈ hidden, held amount base key := by
    rw [← sum_map_toList]
    conv_rhs => rw [← keys, List.map_map]
    refine congrArg sum (map_congr_left fun entry member => ?_)
    rw [Function.comp_apply, held, lookup_of_mem_entriesAt member, elim_some]
  have inserted := total_insertAll amount shown nodup
  rw [← same] at inserted
  omega

/-- What is kept of a run from its base grew by at most what the run created less what it spent. -/
theorem Run.total_le (run : Run base ∅ base mutations hidden final) (keeps : Keeps base hidden final kept) :
    kept.total amount + (mutations.map fun mutation => carried amount mutation.spent).sum ≤
      base.total amount + (mutations.map fun mutation => carried amount mutation.created).sum := by
  have moved := run.total_eq amount
  have present := run.hidden_present nofun
  have bound := keeps.total_le amount present
  rw [sum_empty] at moved
  omega

end

variable {ω : Type} (project : ν → ω)

def Agree (left right : Table κ ν) : Prop := ∀ key, (left.lookup key).map project = (right.lookup key).map project

/-- Mutations of the same keys whose inserted values agree in a part. -/
structure Alike (left right : Mutation κ ν) : Prop where
  spent : left.spentKeys = right.spentKeys
  created : left.created.map (Prod.map id project) = right.created.map (Prod.map id project)

theorem lookup_ofList_map (entries : List (κ × ν)) (key : κ) :
    (Table.ofList (entries.map (Prod.map id project))).lookup key =
    ((Table.ofList entries).lookup key).map project := by
  induction entries with
  | nil => simp
  | cons _ _ ih =>
    simp only [List.map_cons, Table.lookup_ofList_cons, ih, Prod.map_fst, id]
    split <;> rfl

variable {project} {base base' table table' : Table κ ν} {mutation mutation' : Mutation κ ν}

theorem Agree.eq_none (agree : Agree project table table') (key : κ) :
    table.lookup key = none ↔ table'.lookup key = none := by
  rw [← map_eq_none_iff, agree key, map_eq_none_iff]

omit [DecidableEq κ] in
theorem Alike.createdKeys (alike : Alike project mutation mutation') :
    mutation.createdKeys = mutation'.createdKeys := by
  have keys := congrArg (List.map fst) alike.created
  simpa [Mutation.createdKeys, Function.comp_def] using keys

theorem Agree.apply {hides hides' : Finset κ} (agree : Agree project table table')
    (alike : Alike project mutation mutation')
    (valid : mutation.Valid base hides table) (valid' : mutation'.Valid base' hides' table') :
    hides = hides' ∧ Agree project (mutation.apply table) (mutation'.apply table') := by
  constructor
  · ext key
    rw [valid.mem_hides, valid'.mem_hides, alike.createdKeys, alike.spent, Ne, agree.eq_none key]
  intro key
  rw [valid.lookup_apply, valid'.lookup_apply, alike.spent, map_or, map_or,
    ← lookup_ofList_map, ← lookup_ofList_map, alike.created]
  split
  · rfl
  · rw [agree key]

theorem Run.agree {hidden hidden' hidden'' : Finset κ} {final final' : Table κ ν}
    {mutations mutations' : List (Mutation κ ν)}
    (run : Run base hidden table mutations hidden' final) (run' : Run base' hidden table' mutations' hidden'' final')
    (alike : Forall₂ (Alike project) mutations mutations') (agree : Agree project table table') :
    hidden' = hidden'' ∧ Agree project final final' := by
  induction run generalizing table' mutations' with
  | nil =>
    cases alike
    cases run'
    exact ⟨rfl, agree⟩
  | cons valid _ _ ih =>
    cases alike with
    | cons first others =>
      cases run' with
      | cons valid' _ following' =>
        obtain ⟨rfl, applied⟩ := agree.apply first valid valid'
        exact ih following' others applied

theorem Keeps.agree {hidden : Finset κ} {shown shown' kept kept' : Table κ ν} (keeps : Keeps base hidden shown kept)
    (keeps' : Keeps base' hidden shown' kept') (bases : Agree project base base') (agree : Agree project shown shown') :
    Agree project kept kept' := by
  intro key
  by_cases member : key ∈ hidden
  · rw [keeps.stays key member, keeps'.stays key member, bases key]
  · rw [keeps.shows key member, keeps'.shows key member, agree key]

end Mutation

end Rbtc.Foundation
