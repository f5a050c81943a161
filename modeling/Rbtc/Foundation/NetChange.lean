import Rbtc.Foundation.Outcome
import Mathlib.Data.Finmap
import Mathlib.Algebra.Order.Group.Nat
import Mathlib.Algebra.Order.BigOperators.Group.Multiset
import Mathlib.Data.List.Sort

/-! Finite tables over the finite maps of Mathlib, net changes of a keyed map, lists sorted by key, and fallible
passes over a table that rewrite one entry per key. -/

namespace Rbtc.Foundation

open List

section
open Prod Finmap

abbrev Table (κ ν : Type) := Finmap (fun _ : κ => ν)

namespace Table

variable {κ ν : Type} [DecidableEq κ]

def lookup (table : Table κ ν) (key : κ) : Option ν := Finmap.lookup key table

def insert (table : Table κ ν) (key : κ) (value : ν) : Table κ ν := Finmap.insert key value table

def erase (table : Table κ ν) (key : κ) : Table κ ν := Finmap.erase key table

def singleton (key : κ) (value : ν) : Table κ ν := (∅ : Table κ ν).insert key value

variable {left right : Table κ ν} {entry : κ × ν}

@[ext] theorem ext_lookup (agree : ∀ key, left.lookup key = right.lookup key) : left = right :=
  Finmap.ext_lookup agree

theorem lookup_insert (table : Table κ ν) (key other : κ) (value : ν) : (table.insert key value).lookup other =
      if other = key then some value else table.lookup other := by
  split
  · next same => subst same; exact Finmap.lookup_insert table
  · next distinct => exact lookup_insert_of_ne table distinct

theorem lookup_erase (table : Table κ ν) (key other : κ) :
    (table.erase key).lookup other = if other = key then none else table.lookup other := by
  split
  · next same => subst same; exact Finmap.lookup_erase other table
  · next distinct => exact lookup_erase_ne distinct

variable {table : Table κ ν} {key : κ} {entries : List (κ × ν)} {value : ν} {keys : List κ}

@[simp] theorem lookup_insert_self (table : Table κ ν) (key : κ) (value : ν) :
    (table.insert key value).lookup key = some value := by
  rw [lookup_insert, if_pos rfl]

@[simp] theorem lookup_erase_self (table : Table κ ν) (key : κ) : (table.erase key).lookup key = none := by
  rw [lookup_erase, if_pos rfl]

@[simp] theorem lookup_empty (key : κ) : (∅ : Table κ ν).lookup key = none :=
  Finmap.lookup_empty key

@[simp] theorem lookup_singleton (key other : κ) (value : ν) :
    (singleton key value).lookup other = if other = key then some value else none := by
  rw [singleton, lookup_insert, lookup_empty]

theorem lookup_of_erase {other : κ} (found : (table.erase key).lookup other = some value) :
    table.lookup other = some value := by
  rw [lookup_erase] at found
  split at found
  · cases found
  · exact found

theorem mem_iff : key ∈ table ↔ ∃ value, table.lookup key = some value :=
  Finmap.mem_iff

theorem mem_of_lookup (found : table.lookup key = some value) : key ∈ table :=
  mem_iff.mpr ⟨value, found⟩

theorem not_mem_iff : key ∉ table ↔ table.lookup key = none :=
  lookup_eq_none.symm

theorem erase_insert_of_fresh (fresh : table.lookup key = none) : (table.insert key value).erase key = table := by
  ext other : 1
  rw [lookup_erase, lookup_insert]
  split
  · next same => rw [same, fresh]
  · rfl

theorem insert_erase_of_lookup
    (found : table.lookup key = some value) : (table.erase key).insert key value = table := by
  ext other : 1
  rw [lookup_insert, lookup_erase]
  split
  · next same => rw [same, found]
  · rfl

/-- The table of a list of entries; the first of two entries with one key counts. -/
def ofList (entries : List (κ × ν)) : Table κ ν :=
  entries.foldr (fun entry table => table.insert entry.1 entry.2) ∅

@[simp] theorem lookup_ofList_nil (key : κ) : (ofList ([] : List (κ × ν))).lookup key = none :=
  lookup_empty key

@[simp] theorem lookup_ofList_cons (entry : κ × ν) (rest : List (κ × ν)) (key : κ) :
    (ofList (entry :: rest)).lookup key =
      if key = entry.1 then some entry.2 else (ofList rest).lookup key :=
  lookup_insert _ _ _ _

theorem lookup_ofList_eq_none : (ofList entries).lookup key = none ↔ key ∉ entries.map fst := by
  induction entries with
  | nil => simp
  | cons _ _ ih =>
    rw [lookup_ofList_cons, map_cons]
    split
    · next same => simp [same]
    · next distinct => simp [distinct, ih]

theorem lookup_ofList_of_mem {entries : List (κ × ν)} (nodup : (entries.map fst).Nodup)
    {entry : κ × ν} (listed : entry ∈ entries) : (ofList entries).lookup entry.1 = some entry.2 := by
  induction entries with
  | nil => cases listed
  | cons _ _ ih =>
    obtain ⟨apart, restNodup⟩ := nodup_cons.mp nodup
    rw [lookup_ofList_cons]
    rcases mem_cons.mp listed with rfl | later
    · rw [if_pos rfl]
    · rw [if_neg (ne_of_mem_of_not_mem (mem_map_of_mem later) apart)]
      exact ih restNodup later

theorem mem_of_lookup_ofList (found : (ofList entries).lookup key = some value) : (key, value) ∈ entries := by
  induction entries with
  | nil => simp at found
  | cons _ _ ih =>
    rw [lookup_ofList_cons] at found
    split at found
    · next same =>
      cases found
      rw [same]
      exact mem_cons_self
    · exact .tail _ (ih found)

theorem ofList_concat (fresh : entry.1 ∉ entries.map fst) :
    ofList (entries ++ [entry]) = (ofList entries).insert entry.1 entry.2 := by
  ext key : 1
  rw [lookup_insert]
  induction entries with
  | nil => rw [nil_append, lookup_ofList_cons]
  | cons first _ ih =>
    rw [map_cons, mem_cons, not_or] at fresh
    rw [cons_append, lookup_ofList_cons, lookup_ofList_cons, ih fresh.2]
    by_cases isFirst : key = first.1
    · rw [if_pos isFirst, if_pos isFirst, if_neg (isFirst ▸ Ne.symm fresh.1)]
    · rw [if_neg isFirst, if_neg isFirst]

theorem ofList_filter_ne (entries : List (κ × ν)) (key : κ) :
    ofList (entries.filter fun entry => entry.1 ≠ key) = (ofList entries).erase key := by
  ext other : 1
  rw [lookup_erase]
  induction entries with
  | nil => simp
  | cons first _ ih =>
    rw [lookup_ofList_cons]
    by_cases dropped : first.1 = key
    · rw [filter_cons_of_neg (by simpa using dropped), ih]
      by_cases same : other = key
      · rw [if_pos same, if_pos same]
      · rw [if_neg same, if_neg same, if_neg (dropped ▸ same)]
    · rw [filter_cons_of_pos (by simpa using dropped), lookup_ofList_cons, ih]
      by_cases isFirst : other = first.1
      · rw [if_pos isFirst, if_pos isFirst, if_neg (isFirst ▸ dropped)]
      · rw [if_neg isFirst, if_neg isFirst]

theorem card_keys_ofList (nodup : (entries.map fst).Nodup) : (ofList entries).keys.card = entries.length := by
  have keys : (ofList entries).keys = (entries.map fst).toFinset := by
    ext key
    rw [mem_toFinset, Finmap.mem_keys, ← not_iff_not, not_mem_iff, lookup_ofList_eq_none]
  rw [keys, toFinset_card_of_nodup nodup, length_map]

section
variable {μ : Type} {entries : List (κ × ν)} {keep : κ × ν → Option (κ × μ)}

omit [DecidableEq κ] in
theorem map_fst_filterMap_sublist (keys : ∀ entry kept, keep entry = some kept → kept.1 = entry.1) :
    List.Sublist ((entries.filterMap keep).map fst) (entries.map fst) := by
  induction entries with
  | nil => exact List.Sublist.slnil
  | cons entry _ ih =>
    cases kept : keep entry with
    | none =>
      rw [filterMap_cons_none kept]
      exact ih.cons _
    | some result =>
      rw [filterMap_cons_some kept, map_cons, map_cons, keys entry result kept]
      exact ih.cons_cons _

theorem lookup_ofList_filterMap (keys : ∀ entry kept, keep entry = some kept → kept.1 = entry.1)
    (nodup : (entries.map fst).Nodup) (key : κ) : (ofList (entries.filterMap keep)).lookup key =
      ((ofList entries).lookup key).bind fun value => (keep (key, value)).map snd := by
  induction entries with
  | nil => simp
  | cons entry _ ih =>
    obtain ⟨notLater, restNodup⟩ := nodup_cons.mp nodup
    rw [lookup_ofList_cons]
    by_cases same : key = entry.1
    · rw [if_pos same, Option.bind_some, same]
      cases kept : keep entry with
      | none =>
        rw [filterMap_cons_none kept, Option.map_none, lookup_ofList_eq_none]
        exact fun later => notLater ((map_fst_filterMap_sublist keys).subset later)
      | some result =>
        rw [filterMap_cons_some kept, lookup_ofList_cons, keys entry result kept, if_pos rfl, Option.map_some]
    · rw [if_neg same, ← ih restNodup]
      cases kept : keep entry with
      | none => rw [filterMap_cons_none kept]
      | some result =>
        rw [filterMap_cons_some kept, lookup_ofList_cons, keys entry result kept, if_neg same]

end

def eraseAll (table : Table κ ν) (keys : List κ) : Table κ ν := keys.foldl erase table

def insertAll (table : Table κ ν) (entries : List (κ × ν)) : Table κ ν :=
  entries.foldl (fun current entry => current.insert entry.1 entry.2) table

/-- The entries a map has under the listed keys. -/
def entriesOf {κ ν : Type} (read : κ → Option ν) (keys : List κ) : List (κ × ν) :=
  keys.filterMap fun key => (read key).map (key, ·)

def entriesAt (table : Table κ ν) (keys : List κ) : List (κ × ν) := entriesOf table.lookup keys

theorem lookup_eraseAll (table : Table κ ν) (keys : List κ) (key : κ) :
    (table.eraseAll keys).lookup key = if key ∈ keys then none else table.lookup key := by
  unfold eraseAll
  induction keys generalizing table with
  | nil => simp
  | cons first rest ih =>
    rw [foldl_cons, ih, lookup_erase]
    by_cases later : key ∈ rest
    · simp [later]
    · by_cases same : key = first <;> simp [later]

theorem lookup_insertAll (table : Table κ ν) (nodup : (entries.map fst).Nodup) (key : κ) :
    (table.insertAll entries).lookup key = ((ofList entries).lookup key).or (table.lookup key) := by
  unfold insertAll
  induction entries generalizing table with
  | nil => simp
  | cons entry _ ih =>
    obtain ⟨notLater, restNodup⟩ := nodup_cons.mp nodup
    rw [foldl_cons, ih _ restNodup, lookup_insert, lookup_ofList_cons]
    by_cases same : key = entry.1
    · rw [if_pos same, if_pos same, same, lookup_ofList_eq_none.mpr notLater]
      rfl
    · rw [if_neg same, if_neg same]

section
variable {read : κ → Option ν}

omit [DecidableEq κ] in
theorem map_fst_entriesOf (present : ∀ key ∈ keys, read key ≠ none) : (entriesOf read keys).map fst = keys := by
  induction keys with
  | nil => rfl
  | cons key _ ih =>
    obtain ⟨_, found⟩ := Option.ne_none_iff_exists'.mp (present key mem_cons_self)
    rw [entriesOf, filterMap_cons_some (by rw [found]; rfl), map_cons]
    exact congrArg _ (ih fun other later => present other (.tail _ later))

omit [DecidableEq κ] in
theorem read_of_mem_entriesOf (member : entry ∈ entriesOf read keys) : read entry.1 = some entry.2 := by
  obtain ⟨_, _, isEntry⟩ := mem_filterMap.mp member
  obtain ⟨_, found, rfl⟩ := Option.map_eq_some_iff.mp isEntry
  exact found

theorem lookup_ofList_entriesOf (read : κ → Option ν) (keys : List κ) (key : κ) :
    (ofList (entriesOf read keys)).lookup key = if key ∈ keys then read key else none := by
  unfold entriesOf
  induction keys with
  | nil => simp
  | cons first _ ih =>
    cases found : read first with
    | none =>
      rw [filterMap_cons_none (by rw [found]; rfl), ih]
      by_cases same : key = first
      · simp [same, found]
      · simp [same]
    | some _ =>
      rw [filterMap_cons_some (by rw [found]; rfl), lookup_ofList_cons, ih]
      by_cases same : key = first
      · simp [same, found]
      · simp [same]

end

theorem map_fst_entriesAt (present : ∀ key ∈ keys, table.lookup key ≠ none) :
    (table.entriesAt keys).map fst = keys :=
  map_fst_entriesOf present

theorem lookup_of_mem_entriesAt (member : entry ∈ table.entriesAt keys) : table.lookup entry.1 = some entry.2 :=
  read_of_mem_entriesOf member

def total (amount : κ → ν → Nat) (table : Table κ ν) : Nat :=
  (table.entries.map fun entry => amount entry.1 entry.2).sum

section
variable (amount : κ → ν → Nat) {table : Table κ ν} {key : κ} {value : ν}

omit [DecidableEq κ] in
@[simp] theorem total_empty : total amount (∅ : Table κ ν) = 0 := rfl

theorem total_insert (fresh : table.lookup key = none) :
    total amount (table.insert key value) = amount key value + total amount table := by
  unfold total Table.insert
  rw [entries_insert_of_notMem (not_mem_iff.mpr fresh)]
  simp

theorem total_erase (found : table.lookup key = some value) :
    amount key value + total amount (table.erase key) = total amount table := by
  have absent : (table.erase key).lookup key = none := by simp
  rw [← total_insert amount absent, insert_erase_of_lookup found]

theorem total_eq_zero : total amount table = 0 ↔ ∀ key value, table.lookup key = some value → amount key value = 0 := by
  rw [total, Multiset.sum_eq_zero_iff, Multiset.forall_mem_map_iff, Sigma.forall]
  simp only [← mem_lookup_iff]
  rfl

end

/-! Tables of counters: an absent entry counts zero, and no entry is zero. -/

def increment (counts : Table κ Nat) (key : κ) : Table κ Nat :=
  counts.insert key ((counts.lookup key).getD 0 + 1)

def decrement (counts : Table κ Nat) (key : κ) : Table κ Nat :=
  match counts.lookup key with
  | none => counts
  | some count => if count - 1 = 0 then counts.erase key else counts.insert key (count - 1)

/-- The table holds exactly the positive values of the counting function. -/
def Tallies (counts : Table κ Nat) (count : κ → Nat) : Prop :=
  ∀ key, counts.lookup key = if count key = 0 then none else some (count key)

variable {count : κ → Nat} {counts : Table κ Nat} {key : κ}

theorem Tallies.unique {left right : Table κ Nat}
    (leftTallies : left.Tallies count) (rightTallies : right.Tallies count) : left = right := by
  ext key : 1
  rw [leftTallies key, rightTallies key]

theorem Tallies.mem_iff (tallies : counts.Tallies count) : key ∈ counts ↔ count key ≠ 0 := by
  rw [← not_iff_not, not_mem_iff, tallies key]
  simp

theorem tallies_empty : (∅ : Table κ Nat).Tallies fun _ => 0 := fun key => by simp

theorem Tallies.increment {count' : κ → Nat} (tallies : counts.Tallies count)
    (added : ∀ other, count' other = count other + if other = key then 1 else 0) :
    (counts.increment key).Tallies count' := by
  intro other
  rw [Table.increment, lookup_insert, tallies key, tallies other, added other]
  split
  · next same =>
    subst same
    by_cases absent : count other = 0 <;> simp [absent]
  · simp

theorem Tallies.decrement {count' : κ → Nat} (tallies : counts.Tallies count)
    (removed : ∀ other, count other = count' other + if other = key then 1 else 0) :
    (counts.decrement key).Tallies count' := by
  have present : counts.lookup key = some (count' key + 1) := by
    rw [tallies key, removed key]
    simp
  intro other
  have atOther := tallies other
  rw [removed other] at atOther
  simp only [Table.decrement, present]
  by_cases same : other = key
  · subst same
    by_cases absent : count' other = 0 <;> simp [absent]
  simp only [same, if_false, Nat.add_zero] at atOther
  split
  · rw [lookup_erase, if_neg same, atOther]
  · rw [lookup_insert, if_neg same, atOther]

/-- Counting the keys of a list adds their multiplicities; other entries stay as they are. -/
theorem lookup_foldl_increment (counts : Table κ Nat) (keys : List κ) (key : κ) :
    (keys.foldl Table.increment counts).lookup key = if keys.count key = 0 then counts.lookup key
      else some ((counts.lookup key).getD 0 + keys.count key) := by
  induction keys generalizing counts with
  | nil => rfl
  | cons first _ ih =>
    rw [foldl_cons, ih, Table.increment, lookup_insert]
    by_cases same : key = first
    · subst same
      rw [count_cons_self, if_pos rfl, if_neg (Nat.succ_ne_zero _), Option.getD_some]
      split
      · next absent => rw [absent]
      · rw [Nat.add_assoc, Nat.add_comm 1]
    · rw [count_cons_of_ne (Ne.symm same), if_neg same]

theorem Tallies.foldl_increment (tallies : counts.Tallies count) (keys : List κ) :
    (keys.foldl Table.increment counts).Tallies fun key => count key + keys.count key := by
  intro key
  rw [lookup_foldl_increment, tallies key]
  · by_cases absent : count key = 0 <;> simp [absent]

instance {α : Type} (key : α → κ) :
    RightCommutative fun (counts : Table κ Nat) (item : α) => counts.increment (key item) where
  right_comm counts first second := by
    by_cases same : key first = key second
    · simp only [same]
    have different : key second ≠ key first := fun equal => same equal.symm
    ext other : 1
    simp only [Table.increment, lookup_insert, same, different, if_false]
    by_cases isSecond : other = key second
    · simp [isSecond, different]
    · simp only [isSecond, if_false]

theorem tallies_foldl {α : Type} (key : α → κ) (items : Multiset α) (tallies : counts.Tallies count) :
    (items.foldl (fun counts item => counts.increment (key item)) counts).Tallies fun other =>
      count other + (items.map fun item => if key item = other then 1 else 0).sum := by
  induction items using Multiset.induction generalizing counts count with
  | empty => simpa using tallies
  | cons item _ ih =>
    rw [Multiset.foldl_cons]
    have stepped : (counts.increment (key item)).Tallies fun other =>
        count other + if other = key item then 1 else 0 := tallies.increment fun _ => rfl
    intro other
    rw [ih stepped other]
    simp [eq_comm, Nat.add_assoc]

variable {α ε : Type}

def alter (table : Table κ ν) (key : κ) : Option ν → Table κ ν
  | some value => table.insert key value
  | none => table.erase key

theorem lookup_alter (table : Table κ ν) (key other : κ) (value : Option ν) :
    (table.alter key value).lookup other = if other = key then value else table.lookup other := by
  cases value with
  | none => exact lookup_erase table key other
  | some value => exact lookup_insert table key other value

def alterWith (update : Option ν → α → Except ε (Option ν)) (table : Table κ ν) (entry : κ × α) :
    Except ε (Table κ ν) := do
  let updated ← update (table.lookup entry.1) entry.2
  return table.alter entry.1 updated

theorem foldOutcome_alterWith {update : Option ν → α → Except ε (Option ν)} {table final : Table κ ν}
    {entries : List (κ × α)} (nodup : (entries.map Prod.fst).Nodup) :
    foldOutcome (alterWith update) table entries = .ok final ↔
      (∀ entry ∈ entries, update (table.lookup entry.1) entry.2 = .ok (final.lookup entry.1)) ∧
        ∀ key ∉ entries.map Prod.fst, final.lookup key = table.lookup key := by
  induction entries generalizing table with
  | nil =>
    simp only [foldOutcome_nil, Except.ok.injEq, not_mem_nil, false_implies, implies_true,
      true_and, map_nil, not_false_eq_true, true_implies]
    exact ⟨fun same key => by rw [same], fun agree => ext_lookup fun key => (agree key).symm⟩
  | cons entry rest ih =>
    obtain ⟨apart, restNodup⟩ := nodup_cons.mp nodup
    have below : ∀ updated key, key ≠ entry.1 →
        (table.alter entry.1 updated).lookup key = table.lookup key := fun updated key distinct => by
      rw [lookup_alter, if_neg distinct]
    have distinct : ∀ later ∈ rest, later.1 ≠ entry.1 := fun later member same =>
      apart (same ▸ mem_map_of_mem member)
    simp only [foldOutcome_cons, alterWith, bind_eq_ok, pure_eq_ok, forall_mem_cons]
    constructor
    · rintro ⟨_, ⟨updated, first, rfl⟩, remaining⟩
      obtain ⟨others, kept⟩ := (ih restNodup).mp remaining
      refine ⟨⟨?_, fun later member => ?_⟩, fun key unlisted => ?_⟩
      · rw [kept entry.1 apart, lookup_alter, if_pos rfl, first]
      · rw [← others later member, below updated later.1 (distinct later member)]
      · obtain ⟨notFirst, notLater⟩ := not_or.mp (mt mem_cons.mpr unlisted)
        rw [kept key notLater, below updated key notFirst]
    · rintro ⟨⟨first, others⟩, kept⟩
      refine ⟨_, ⟨final.lookup entry.1, first, rfl⟩, (ih restNodup).mpr ⟨fun later member => ?_,
        fun key notLater => ?_⟩⟩
      · rw [below _ later.1 (distinct later member), others later member]
      rw [lookup_alter]
      split
      · next same => rw [same]
      · next notFirst =>
        exact kept key fun listed => (mem_cons.mp listed).elim notFirst notLater

end Table

end

section
open Finset Table

/-- The net effect of a run of removals and insertions. A key may be both removed and inserted
again. -/
structure NetChange (κ ν : Type) where
  spent : Finset κ
  created : Table κ ν

namespace NetChange

variable {κ ν : Type} [DecidableEq κ]

instance : EmptyCollection (NetChange κ ν) := ⟨⟨∅, ∅⟩⟩

/-- What a reader sees who consults the change first and the base for keys it does not touch. -/
def onto (change : NetChange κ ν) (base : κ → Option ν) : κ → Option ν := fun key =>
  match change.created.lookup key with
  | some value => some value
  | none => if key ∈ change.spent then none else base key

/-- The change removes only present entries and inserts only under keys that are then free. -/
structure Fits (change : NetChange κ ν) (base : κ → Option ν) : Prop where
  spent_present : ∀ key ∈ change.spent, base key ≠ none
  created_fresh : ∀ key, change.created.lookup key ≠ none → key ∉ change.spent → base key = none

theorem fits_empty (base : κ → Option ν) : (∅ : NetChange κ ν).Fits base where
  spent_present key member := absurd member (notMem_empty key)
  created_fresh key created := absurd (lookup_empty key) created

variable {key : κ} {change : NetChange κ ν}

theorem onto_of_created {value : ν} (created : change.created.lookup key = some value) (base : κ → Option ν) :
    change.onto base key = some value := by
  simp [onto, created]

theorem onto_of_spent (absent : change.created.lookup key = none) (spent : key ∈ change.spent)
    (base : κ → Option ν) : change.onto base key = none := by
  simp [onto, absent, if_pos spent]

theorem onto_of_untouched (absent : change.created.lookup key = none) (unspent : key ∉ change.spent)
    (base : κ → Option ν) : change.onto base key = base key := by
  simp [onto, absent, if_neg unspent]

@[simp] theorem onto_empty (base : κ → Option ν) : (∅ : NetChange κ ν).onto base = base :=
  funext fun key => onto_of_untouched (lookup_empty key) (notMem_empty key) base

theorem onto_onto (change : NetChange κ ν) (base : κ → Option ν) :
    change.onto (change.onto base) = change.onto base := by
  funext key
  cases created : change.created.lookup key with
  | some _ => rw [onto_of_created created, onto_of_created created]
  | none =>
    by_cases spent : key ∈ change.spent
    · rw [onto_of_spent created spent, onto_of_spent created spent]
    · rw [onto_of_untouched created spent]

/-- Two changes that differ at one key at most. -/
structure AgreesOff (left right : NetChange κ ν) (key : κ) : Prop where
  created : ∀ other, other ≠ key → right.created.lookup other = left.created.lookup other
  spent : ∀ other, other ≠ key → (other ∈ right.spent ↔ other ∈ left.spent)

variable {left right : NetChange κ ν}

theorem AgreesOff.onto_eq (agrees : left.AgreesOff right key) (base : κ → Option ν) :
    right.onto base = Function.update (left.onto base) key (right.onto base key) := by
  funext other
  by_cases same : other = key
  · rw [same, Function.update_self]
  · rw [Function.update_of_ne same]
    simp [onto, agrees.created other same, agrees.spent other same]

theorem AgreesOff.fits {base : κ → Option ν} (agrees : left.AgreesOff right key) (fits : left.Fits base)
    (present : key ∈ right.spent → base key ≠ none)
    (fresh : right.created.lookup key ≠ none → key ∉ right.spent → base key = none) : right.Fits base where
  spent_present other spent := by
    by_cases same : other = key
    · exact same ▸ present (same ▸ spent)
    · exact fits.spent_present other ((agrees.spent other same).mp spent)
  created_fresh other created unspent := by
    by_cases same : other = key
    · exact same ▸ fresh (same ▸ created) (same ▸ unspent)
    · exact fits.created_fresh other (agrees.created other same ▸ created)
        fun spent => unspent ((agrees.spent other same).mpr spent)

/-- No entry of the base is removed or replaced. -/
def Spares (change : NetChange κ ν) (base : κ → Option ν) : Prop :=
  ∀ key, base key ≠ none → key ∉ change.spent ∧ change.created.lookup key = none

def shownKeys (change : NetChange κ ν) (held : Finset κ) : Finset κ :=
  change.created.keys ∪ held.filter fun key => key ∉ change.spent ∧ change.created.lookup key = none

variable {base : κ → Option ν} {held : Finset κ} (holds : ∀ key, key ∈ held ↔ base key ≠ none)
include holds

theorem mem_shownKeys : key ∈ change.shownKeys held ↔ change.onto base key ≠ none := by
  rw [shownKeys, Finset.mem_union, Finset.mem_filter, holds, Finmap.mem_keys, Table.mem_iff]
  cases created : change.created.lookup key with
  | some _ => simp [onto_of_created created]
  | none =>
    by_cases spent : key ∈ change.spent
    · simp [onto_of_spent created spent, spent]
    · simp [onto_of_untouched created spent, spent]

/-- The entries shown are at most those of the change and of the base, and all of them only if the
change spares the base. -/
theorem card_shownKeys (change : NetChange κ ν) : (change.shownKeys held).card ≤ change.created.keys.card + held.card ∧
      ((change.shownKeys held).card = change.created.keys.card + held.card ↔ change.Spares base) := by
  have apart : Disjoint change.created.keys
      (held.filter fun key => key ∉ change.spent ∧ change.created.lookup key = none) := by
    refine disjoint_left.mpr fun key created kept => ?_
    exact not_mem_iff.mpr (mem_filter.mp kept).2.2 (Finmap.mem_keys.mp created)
  rw [shownKeys, card_union_of_disjoint apart, Nat.add_le_add_iff_left, Nat.add_left_cancel_iff, card_filter_eq_iff]
  refine ⟨card_filter_le _ _, ?_⟩
  simp only [holds]
  rfl

end NetChange

section
variable {κ ν : Type} [LinearOrder κ]

def sortedKeys (keys : Finset κ) : List κ :=
  Quot.liftOn keys.val (insertionSort (· ≤ ·)) (by
    intro left right perm
    exact Perm.eq_of_pairwise' (pairwise_insertionSort _ _)
      (pairwise_insertionSort _ _) ((perm_insertionSort _ left).trans
        (perm.trans (perm_insertionSort _ right).symm)))

def sortedEntries (table : Table κ ν) : List (κ × ν) :=
  table.entriesAt (sortedKeys table.keys)

theorem perm_sortedKeys (keys : Finset κ) : (sortedKeys keys : Multiset κ) = keys.val := by
  rcases keys with ⟨⟨list⟩, _⟩
  exact Quot.sound (perm_insertionSort _ list)

variable {key : κ} {table : Table κ ν}

theorem mem_sortedKeys {keys : Finset κ} : key ∈ sortedKeys keys ↔ key ∈ keys := by
  rw [← Multiset.mem_coe, perm_sortedKeys, mem_val]

theorem nodup_sortedKeys (keys : Finset κ) : (sortedKeys keys).Nodup := by
  rw [← Multiset.coe_nodup, perm_sortedKeys]
  exact keys.nodup

theorem pairwise_sortedKeys (keys : Finset κ) : (sortedKeys keys).Pairwise (· < ·) := by
  have ordered : (sortedKeys keys).Pairwise (· ≤ ·) := by
    rcases keys with ⟨⟨list⟩, _⟩
    exact pairwise_insertionSort _ list
  exact (ordered.and (nodup_sortedKeys keys)).imp fun both => lt_of_le_of_ne both.1 both.2

theorem toFinset_sortedKeys (keys : Finset κ) : (sortedKeys keys).toFinset = keys := by
  ext key
  rw [mem_toFinset, mem_sortedKeys]

theorem mem_keys_iff : key ∈ table.keys ↔ table.lookup key ≠ none := by
  rw [Finmap.mem_keys, ← not_iff_not, not_mem_iff, not_not]

theorem map_fst_sortedEntries (table : Table κ ν) : (sortedEntries table).map Prod.fst = sortedKeys table.keys :=
  map_fst_entriesAt fun _ member => mem_keys_iff.mp (mem_sortedKeys.mp member)

theorem mem_sortedEntries {entry : κ × ν} : entry ∈ sortedEntries table ↔ table.lookup entry.1 = some entry.2 := by
  refine ⟨lookup_of_mem_entriesAt, fun found => ?_⟩
  have listed : entry.1 ∈ sortedKeys table.keys :=
    mem_sortedKeys.mpr (mem_keys_iff.mpr (found ▸ Option.some_ne_none entry.2))
  exact mem_filterMap.mpr ⟨entry.1, listed, by rw [found]; rfl⟩

theorem ofList_sortedEntries (table : Table κ ν) : ofList (sortedEntries table) = table := by
  ext key : 1
  rw [sortedEntries, entriesAt, lookup_ofList_entriesOf]
  split
  · rfl
  · next unlisted =>
    rw [mem_sortedKeys, mem_keys_iff] at unlisted
    exact (not_not.mp unlisted).symm

end

variable {κ ν : Type} [LinearOrder κ]

def KeySorted (entries : List (κ × ν)) : Prop := entries.Pairwise fun left right => left.1 < right.1

instance (entries : List (κ × ν)) : Decidable (KeySorted entries) :=
  inferInstanceAs (Decidable (Pairwise _ _))

namespace KeySorted

variable {entries : List (κ × ν)}

theorem nodup (sorted : KeySorted entries) : (entries.map Prod.fst).Nodup :=
  pairwise_map.mpr (sorted.imp fun below => below.ne)

variable {entry : κ × ν} {other : List (κ × ν)} (sorted : KeySorted entries)
include sorted

theorem lookup_of_mem (member : entry ∈ entries) : (Table.ofList entries).lookup entry.1 = some entry.2 :=
  Table.lookup_ofList_of_mem sorted.nodup member

theorem lookup_eq_some : (Table.ofList entries).lookup entry.1 = some entry.2 ↔ entry ∈ entries :=
  ⟨Table.mem_of_lookup_ofList, sorted.lookup_of_mem⟩

theorem ext (otherSorted : KeySorted other) (same : ∀ entry, entry ∈ entries ↔ entry ∈ other) : entries = other :=
  Perm.eq_of_pairwise (fun _ _ _ _ below above => absurd above below.not_gt) sorted otherSorted
    ((perm_ext_iff_of_nodup (.of_map _ sorted.nodup) (.of_map _ otherSorted.nodup)).mpr same)

theorem concat (above : ∀ last ∈ entries.getLast?, last.1 < entry.1) : KeySorted (entries ++ [entry]) := by
  refine isChain_iff_pairwise.mp (isChain_append.mpr
    ⟨isChain_iff_pairwise.mpr sorted, .singleton entry, fun last isLast next isNext => ?_⟩)
  cases isNext
  exact above last isLast

end KeySorted

theorem keySorted_sortedEntries (table : Table κ ν) : KeySorted (sortedEntries table) := by
  rw [KeySorted, ← pairwise_map, map_fst_sortedEntries]
  exact pairwise_sortedKeys table.keys

theorem KeySorted.sortedEntries_ofList {entries : List (κ × ν)} (sorted : KeySorted entries) :
    sortedEntries (Table.ofList entries) = entries :=
  (keySorted_sortedEntries _).ext sorted fun _ => mem_sortedEntries.trans sorted.lookup_eq_some

theorem Table.foldOutcome_alterWith_counts {ε : Type}
    {update : Option ν → Nat → Except ε (Option ν)} {table final : Table κ ν} {counts : Table κ Nat}
    {count : κ → Nat} (tallies : counts.Tallies count) :
    foldOutcome (alterWith update) table (sortedEntries counts) = .ok final ↔
      ∀ key, if count key = 0 then final.lookup key = table.lookup key
        else update (table.lookup key) (count key) = .ok (final.lookup key) := by
  have nodup : ((sortedEntries counts).map Prod.fst).Nodup := by
    rw [map_fst_sortedEntries]
    exact nodup_sortedKeys counts.keys
  rw [foldOutcome_alterWith nodup, map_fst_sortedEntries]
  simp only [mem_sortedEntries, mem_sortedKeys, mem_keys_iff, not_not, tallies _]
  constructor
  · rintro ⟨listed, unlisted⟩ key
    split
    · next zero => exact unlisted key (if_pos zero)
    · next positive => exact listed (key, count key) (if_neg positive)
  intro rewritten
  refine ⟨fun entry isEntry => ?_, fun key absent => ?_⟩
  · have atKey := rewritten entry.1
    split at isEntry
    · cases isEntry
    · next positive =>
      rw [if_neg positive] at atKey
      rwa [← Option.some.inj isEntry]
  · have atKey := rewritten key
    split at absent
    · next zero => rwa [if_pos zero] at atKey
    · cases absent

end

end Rbtc.Foundation
