import Rbtc.Foundation.NetChange

/-! A keyed map edited one entry at a time, and what the net change of a run of edits still tells. -/

namespace Rbtc.Foundation

open List Prod Function Table NetChange

inductive Edit (κ ν : Type) where
  | remove (key : κ)
  | insert (key : κ) (value : ν)

variable {κ ν : Type} [DecidableEq κ]

variable {base : κ → Option ν} {removed : List κ} {created : List (κ × ν)} {edits : List (Edit κ ν)}
  {change : NetChange κ ν}

namespace Edit

def Fits (entries : κ → Option ν) : Edit κ ν → Prop
  | .remove key => entries key ≠ none
  | .insert key _ => entries key = none

def apply (entries : κ → Option ν) : Edit κ ν → κ → Option ν
  | .remove key => update entries key none
  | .insert key value => update entries key (some value)

def key : Edit κ ν → κ
  | .remove key | .insert key _ => key

def value : Edit κ ν → Option ν
  | .remove _ => none
  | .insert _ value => some value

theorem apply_eq (entries : κ → Option ν) (edit : Edit κ ν) :
    edit.apply entries = update entries edit.key edit.value := by
  cases edit <;> rfl

omit [DecidableEq κ] in
theorem fits_congr {left right : κ → Option ν} {edit : Edit κ ν} (same : left edit.key = right edit.key) :
    edit.Fits left ↔ edit.Fits right := by
  cases edit with
  | remove _ => exact iff_of_eq (congrArg (· ≠ none) same)
  | insert _ _ => exact iff_of_eq (congrArg (· = none) same)

def applyAll (entries : κ → Option ν) (edits : List (Edit κ ν)) : κ → Option ν :=
  edits.foldl apply entries

def FitsAll : (κ → Option ν) → List (Edit κ ν) → Prop
  | _, [] => True
  | entries, edit :: rest => edit.Fits entries ∧ FitsAll (edit.apply entries) rest

theorem fitsAll_append {entries : κ → Option ν} {front back : List (Edit κ ν)} :
    FitsAll entries (front ++ back) ↔ FitsAll entries front ∧ FitsAll (applyAll entries front) back := by
  induction front generalizing entries with
  | nil => simp [FitsAll, applyAll]
  | cons _ _ ih =>
    simp only [cons_append, FitsAll, ih, and_assoc]
    exact Iff.rfl

theorem applyAll_append (entries : κ → Option ν) (front back : List (Edit κ ν)) :
    applyAll entries (front ++ back) = applyAll (applyAll entries front) back :=
  foldl_append

/-- Maps that agree up to a projection of their values go on agreeing under the same edits. -/
theorem map_applyAll_congr {μ : Type} {project : ν → μ} {left right : κ → Option ν}
    (same : ∀ key, (left key).map project = (right key).map project) (edits : List (Edit κ ν)) (key : κ) :
    (applyAll left edits key).map project = (applyAll right edits key).map project := by
  induction edits generalizing left right with
  | nil => exact same key
  | cons edit _ ih =>
    refine ih fun other => ?_
    rw [apply_eq, apply_eq]
    by_cases isKey : other = edit.key
    · rw [isKey, update_self, update_self]
    · rw [update_of_ne isKey, update_of_ne isKey, same]

def removedKeys (edits : List (Edit κ ν)) : List κ :=
  edits.filterMap fun
    | .remove key => some key
    | .insert _ _ => none

omit [DecidableEq κ] in
theorem removedKeys_append (front back : List (Edit κ ν)) :
    removedKeys (front ++ back) = removedKeys front ++ removedKeys back :=
  filterMap_append

def ofEntry (entry : κ × ν) : Edit κ ν := .insert entry.1 entry.2

/-- The edits that remove the keys of one list and insert the entries of another. -/
def ofLists (spent : List κ) (created : List (κ × ν)) : List (Edit κ ν) :=
  spent.map .remove ++ created.map ofEntry

omit [DecidableEq κ] in
theorem removedKeys_ofLists (spent : List κ) (created : List (κ × ν)) :
    removedKeys (ofLists spent created) = spent := by
  rw [ofLists, removedKeys_append]
  simp [removedKeys, ofEntry, filterMap_map]

omit [DecidableEq κ] in
theorem mem_created_of_insert {spent : List κ} {key : κ} {value : ν}
    (member : insert key value ∈ ofLists spent created) :
    (key, value) ∈ created := by
  simp only [ofLists, ofEntry, mem_append, mem_map, reduceCtorEq, and_false, exists_false, false_or,
    insert.injEq] at member
  obtain ⟨_, listed, rfl, rfl⟩ := member
  exact listed

/-- An insertion over an entry of the base is preceded by a removal of its key. -/
def Unhidden (base : κ → Option ν) : List κ → List (Edit κ ν) → Prop
  | _, [] => True
  | removed, .remove key :: rest => Unhidden base (removed ++ [key]) rest
  | removed, .insert key _ :: rest => (base key ≠ none → key ∈ removed) ∧ Unhidden base removed rest

variable {entries : κ → Option ν} {rest : List (Edit κ ν)} {keys : List κ}

/-- Edits of which none fits after another of its key fit one after the other as they fit at first. -/
theorem fitsAll_map {α : Type} (edit : α → Edit κ ν) (once : ∀ first second entries,
      (edit second).key = (edit first).key → ¬ (edit second).Fits ((edit first).apply entries)) {items : List α} :
    FitsAll entries (items.map edit) ↔
      (items.map fun item => (edit item).key).Nodup ∧ ∀ item ∈ items, (edit item).Fits entries := by
  have kept : ∀ {first second}, (edit second).key ≠ (edit first).key → ∀ entries,
      ((edit second).Fits ((edit first).apply entries) ↔ (edit second).Fits entries) := by
    intro first second distinct entries
    exact fits_congr (by rw [apply_eq, update_of_ne distinct])
  induction items generalizing entries with
  | nil => simp [FitsAll]
  | cons first rest ih =>
    simp only [map_cons, FitsAll, ih, nodup_cons, forall_mem_cons, mem_map, not_exists, not_and]
    constructor
    · rintro ⟨fits, nodup, others⟩
      have apart : ∀ item ∈ rest, (edit item).key ≠ (edit first).key := fun item later same =>
        once first item entries same (others item later)
      exact ⟨⟨apart, nodup⟩, fits, fun item later => (kept (apart item later) entries).mp (others item later)⟩
    · rintro ⟨⟨apart, nodup⟩, fits, others⟩
      exact ⟨fits, nodup, fun item later => (kept (apart item later) entries).mpr (others item later)⟩

theorem fitsAll_removes : FitsAll entries (keys.map .remove) ↔ keys.Nodup ∧ ∀ key ∈ keys, entries key ≠ none := by
  refine (fitsAll_map remove fun first _ entries same fits => ?_).trans (by simp [key, Fits])
  cases same
  exact fits (show update entries first none first = none from update_self ..)

theorem applyAll_removes (entries : κ → Option ν) (keys : List κ) (key : κ) :
    applyAll entries (keys.map .remove) key = if key ∈ keys then none else entries key := by
  induction keys generalizing entries with
  | nil => simp [applyAll]
  | cons first rest ih =>
    refine (ih (apply entries (.remove first))).trans ?_
    · by_cases same : key = first
      · simp [apply, same]
      · simp [apply, same]

theorem fitsAll_inserts : FitsAll entries (created.map ofEntry) ↔
      (created.map fst).Nodup ∧ ∀ key ∈ created.map fst, entries key = none := by
  refine (fitsAll_map ofEntry fun first second entries same fits => ?_).trans (by rw [forall_mem_map]; rfl)
  have found : update entries first.1 (some first.2) second.1 = some first.2 := by
    rw [show second.1 = first.1 from same, update_self]
  cases found.symm.trans fits

theorem applyAll_inserts (entries : κ → Option ν) (nodup : (created.map fst).Nodup) (key : κ) :
    applyAll entries (created.map ofEntry) key =
      ((ofList created).lookup key).or (entries key) := by
  induction created generalizing entries with
  | nil => simp [applyAll]
  | cons entry _ ih =>
    obtain ⟨apart, restNodup⟩ := nodup_cons.mp nodup
    refine (ih (apply entries (.insert entry.1 entry.2)) restNodup).trans ?_
    by_cases same : key = entry.1
    · rw [same, lookup_ofList_eq_none.mpr apart]
      simp [apply]
    · simp [apply, same]

omit [DecidableEq κ] in
theorem unhidden_removes : Unhidden base removed (keys.map .remove ++ rest) ↔ Unhidden base (removed ++ keys) rest := by
  induction keys generalizing removed with
  | nil => simp
  | cons _ _ ih =>
    rw [map_cons, cons_append, Unhidden, ih, append_assoc, singleton_append]

omit [DecidableEq κ] in
theorem unhidden_inserts : Unhidden base removed (created.map ofEntry ++ rest) ↔
      (∀ key ∈ created.map fst, base key ≠ none → key ∈ removed) ∧ Unhidden base removed rest := by
  induction created with
  | nil => simp
  | cons _ _ ih =>
    rw [map_cons, cons_append, ofEntry, Unhidden, ih, map_cons, forall_mem_cons, and_assoc]

theorem applyAll_ofLists (entries : κ → Option ν) (keys : List κ) (nodup : (created.map fst).Nodup) (key : κ) :
    applyAll entries (ofLists keys created) key =
      ((ofList created).lookup key).or (if key ∈ keys then none else entries key) := by
  rw [ofLists, applyAll_append, applyAll_inserts _ nodup, applyAll_removes]

/-- The removed keys are distinct and present, and the inserted keys distinct and then absent. -/
structure Applicable (entries : κ → Option ν) (spent : List κ) (created : List (κ × ν)) : Prop where
  spent_nodup : spent.Nodup
  spent_present : ∀ key ∈ spent, entries key ≠ none
  created_nodup : (created.map fst).Nodup
  created_fresh : ∀ key ∈ created.map fst, key ∉ spent → entries key = none

theorem fitsAll_ofLists : FitsAll entries (ofLists keys created) ↔ Applicable entries keys created := by
  simp only [ofLists, fitsAll_append, fitsAll_removes, fitsAll_inserts, applyAll_removes, ite_eq_left_iff]
  exact ⟨fun ⟨⟨nodup, present⟩, createdNodup, fresh⟩ => ⟨nodup, present, createdNodup, fresh⟩,
    fun applicable => ⟨⟨applicable.1, applicable.2⟩, applicable.3, applicable.4⟩⟩

theorem applicable_cons_spent {key : κ} : Applicable entries (key :: keys) created ↔
      entries key ≠ none ∧ Applicable (update entries key none) keys created := by
  rw [← fitsAll_ofLists, ← fitsAll_ofLists]
  rfl

theorem applicable_cons_created {entry : κ × ν} (unspent : entry.1 ∉ keys) :
    Applicable entries keys (entry :: created) ↔
      entries entry.1 = none ∧ Applicable (update entries entry.1 (some entry.2)) keys created := by
  have kept : ∀ {listed : List κ}, entry.1 ∉ listed → ∀ other ∈ listed,
      update entries entry.1 (some entry.2) other = entries other :=
    fun apart other member => update_of_ne (ne_of_mem_of_not_mem member apart) ..
  constructor
  · rintro ⟨spentNodup, present, createdNodup, fresh⟩
    obtain ⟨apart, restNodup⟩ := nodup_cons.mp createdNodup
    refine ⟨fresh _ mem_cons_self unspent, spentNodup, fun other listed => ?_, restNodup, fun other listed free => ?_⟩
    · rw [kept unspent other listed]
      exact present other listed
    · rw [kept apart other listed]
      exact fresh other (.tail _ listed) free
  · rintro ⟨absent, spentNodup, present, createdNodup, fresh⟩
    have apart : entry.1 ∉ created.map fst := fun later => by
      simpa using fresh entry.1 later unspent
    refine ⟨spentNodup, fun other listed => ?_, nodup_cons.mpr ⟨apart, createdNodup⟩,
      forall_mem_cons.mpr ⟨fun _ => absent, fun other later free => ?_⟩⟩
    · rw [← kept unspent other listed]
      exact present other listed
    · rw [← kept apart other later]
      exact fresh other later free

theorem lookup_erase_eq (table : Table κ ν) (key : κ) : (table.erase key).lookup = update table.lookup key none :=
  funext fun other => by rw [lookup_erase, update_apply]

theorem lookup_insert_eq (table : Table κ ν) (key : κ) (value : ν) :
    (table.insert key value).lookup = update table.lookup key (some value) :=
  funext fun other => by rw [lookup_insert, update_apply]

theorem lookup_applied (table : Table κ ν) (keys : List κ) (nodup : (created.map fst).Nodup) :
    ((table.eraseAll keys).insertAll created).lookup = applyAll table.lookup (ofLists keys created) := by
  funext key
  rw [applyAll_ofLists _ _ nodup, lookup_insertAll _ nodup, lookup_eraseAll]

namespace Applicable

section
variable (applicable : Applicable entries keys created)
include applicable

omit [DecidableEq κ] in
theorem map_fst_entries : (entriesOf entries keys).map fst = keys :=
  map_fst_entriesOf applicable.spent_present

omit [DecidableEq κ] in
theorem nodup_entries : ((entriesOf entries keys).map fst).Nodup := by
  rw [applicable.map_fst_entries]
  exact applicable.spent_nodup

/-- Removing what was inserted and putting the removed entries back restores the map. -/
theorem reverted : applyAll (applyAll entries (ofLists keys created))
      (ofLists (created.map fst) (entriesOf entries keys)) = entries := by
  funext key
  rw [applyAll_ofLists _ _ applicable.nodup_entries, lookup_ofList_entriesOf,
    applyAll_ofLists _ _ applicable.created_nodup]
  by_cases isSpent : key ∈ keys
  · obtain ⟨_, found⟩ := Option.ne_none_iff_exists'.mp (applicable.spent_present key isSpent)
    rw [if_pos isSpent, found, Option.some_or]
  rw [if_neg isSpent, Option.none_or]
  split
  · next isCreated => exact (applicable.created_fresh key isCreated isSpent).symm
  · next kept => rw [lookup_ofList_eq_none.mpr kept, Option.none_or]

/-- A removed entry is absent afterwards unless it was inserted again. -/
theorem absent_iff {key : κ} (isSpent : key ∈ keys) :
    applyAll entries (ofLists keys created) key = none ↔ key ∉ created.map fst := by
  rw [applyAll_ofLists _ _ applicable.created_nodup, if_pos isSpent, Option.or_none, lookup_ofList_eq_none]

end

variable {table : Table κ ν} (applicable : Applicable table.lookup keys created)
include applicable

theorem absent : ∀ entry ∈ table.entriesAt keys, entry.1 ∈ created.map fst ∨
      ((table.eraseAll keys).insertAll created).lookup entry.1 = none := by
  intro entry member
  rw [lookup_applied _ _ applicable.created_nodup,
    applicable.absent_iff (applicable.map_fst_entries ▸ mem_map_of_mem member)]
  exact Decidable.em _

theorem reverted_table : (((table.eraseAll keys).insertAll created).eraseAll (created.map fst)).insertAll
      (table.entriesAt keys) = table := by
  ext key : 1
  rw [entriesAt, lookup_applied _ _ applicable.nodup_entries, lookup_applied _ _ applicable.created_nodup,
    applicable.reverted]

end Applicable

end Edit

namespace NetChange

def Admits (change : NetChange κ ν) : Edit κ ν → Prop
  | .remove key => change.created.lookup key ≠ none ∨ key ∉ change.spent
  | .insert key _ => change.created.lookup key = none

/-- The change extended by an edit: removing an entry that the change has inserted cancels both. -/
def edit (change : NetChange κ ν) : Edit κ ν → NetChange κ ν
  | .remove key =>
    if change.created.lookup key ≠ none then { change with created := change.created.erase key }
    else { change with spent := insert key change.spent }
  | .insert key value => { change with created := change.created.insert key value }

def editAll (change : NetChange κ ν) (edits : List (Edit κ ν)) : NetChange κ ν :=
  edits.foldl edit change

def AdmitsAll : NetChange κ ν → List (Edit κ ν) → Prop
  | _, [] => True
  | change, edit :: rest => change.Admits edit ∧ AdmitsAll (change.edit edit) rest

theorem admitsAll_append {front back : List (Edit κ ν)} :
    change.AdmitsAll (front ++ back) ↔ change.AdmitsAll front ∧ (change.editAll front).AdmitsAll back := by
  induction front generalizing change with
  | nil => simp [AdmitsAll, editAll]
  | cons _ _ ih =>
    simp only [cons_append, AdmitsAll, ih, and_assoc]
    exact Iff.rfl

theorem editAll_append (change : NetChange κ ν) (front back : List (Edit κ ν)) :
    change.editAll (front ++ back) = (change.editAll front).editAll back :=
  foldl_append

theorem spent_subset_editAll (change : NetChange κ ν) (edits : List (Edit κ ν)) :
    change.spent ⊆ (change.editAll edits).spent := by
  induction edits generalizing change with
  | nil => exact fun _ member => member
  | cons edit _ ih =>
    refine Finset.Subset.trans ?_ (ih (change.edit edit))
    cases edit with
    | remove key =>
      rw [edit]
      split
      · exact fun _ member => member
      · exact Finset.subset_insert key change.spent
    | insert _ _ => exact fun _ member => member

theorem mem_of_created_editAll {key : κ} {value : ν}
    (created : (change.editAll edits).created.lookup key = some value) :
    change.created.lookup key = some value ∨ Edit.insert key value ∈ edits := by
  induction edits generalizing change with
  | nil => exact .inl created
  | cons edit _ ih =>
    rcases ih created with before | later
    · cases edit with
      | remove _ =>
        rw [edit] at before
        split at before
        · exact .inl (lookup_of_erase before)
        · exact .inl before
      | insert _ _ =>
        rw [edit, lookup_insert] at before
        split at before
        · next same =>
          rw [same, Option.some.inj before]
          exact .inr mem_cons_self
        · exact .inl before
    · exact .inr (.tail _ later)

/-- The change stands for the edits so far: it hides nothing and has recorded removals of base entries. -/
structure Tracks (base : κ → Option ν) (removed : List κ) (change : NetChange κ ν) : Prop where
  fresh : ∀ key, change.created.lookup key ≠ none → key ∉ change.spent → base key = none
  spent_removed : ∀ key ∈ change.spent, key ∈ removed
  recorded : ∀ key ∈ removed, base key ≠ none → key ∈ change.spent

theorem tracks_empty (base : κ → Option ν) : Tracks base [] (∅ : NetChange κ ν) where
  fresh key created := absurd (lookup_empty key) created
  spent_removed key spent := absurd spent (Finset.notMem_empty key)
  recorded _ listed := absurd listed not_mem_nil

section
variable (tracks : Tracks base removed change)
include tracks

theorem Tracks.remove (key : κ) : Tracks base (removed ++ [key]) (change.edit (.remove key)) := by
  rw [edit]
  split
  · next created =>
    refine ⟨fun other kept unspent => ?_, fun other spent => ?_, fun other listed present => ?_⟩
    · refine tracks.fresh other ?_ unspent
      rw [lookup_erase] at kept
      split at kept
      · exact absurd rfl kept
      · exact kept
    · exact mem_append_left _ (tracks.spent_removed other spent)
    obtain earlier | same := mem_append.mp listed
    · exact tracks.recorded other earlier present
    rw [mem_singleton.mp same] at present ⊢
    -- The cancelled entry stood on a key of the base, so that key had been removed before.
    by_contra unspent
    exact present (tracks.fresh key created unspent)
  · refine ⟨fun other created unspent => ?_, fun other spent => ?_, fun other listed present => ?_⟩
    · exact tracks.fresh other created fun spent => unspent (Finset.mem_insert_of_mem spent)
    · obtain rfl | earlier := Finset.mem_insert.mp spent
      · exact mem_append_right _ (mem_singleton_self other)
      · exact mem_append_left _ (tracks.spent_removed other earlier)
    · obtain earlier | same := mem_append.mp listed
      · exact Finset.mem_insert_of_mem (tracks.recorded other earlier present)
      · exact mem_singleton.mp same ▸ Finset.mem_insert_self ..

theorem Tracks.insert {key : κ} (value : ν)
    (unhidden : base key ≠ none → key ∈ removed) : Tracks base removed (change.edit (.insert key value)) where
  fresh other created unspent := by
    by_cases same : other = key
    · by_contra present
      exact unspent (tracks.recorded other (same ▸ unhidden (same ▸ present)) present)
    · refine tracks.fresh other ?_ unspent
      rwa [edit, lookup_insert, if_neg same] at created
  spent_removed := tracks.spent_removed
  recorded := tracks.recorded

/-- Removing an entry shows in the change, whether it is cancelled or recorded. -/
theorem onto_remove (key : κ) :
    (change.edit (.remove key)).onto base = Edit.apply (change.onto base) (.remove key) := by
  rw [edit]
  split
  · next created =>
    have agrees : change.AgreesOff { change with created := change.created.erase key } key :=
      ⟨fun other apart => by rw [lookup_erase, if_neg apart], fun _ _ => Iff.rfl⟩
    rw [agrees.onto_eq base]
    refine congrArg (update _ key) ?_
    simp only [onto, lookup_erase_self]
    split
    · rfl
    · next unspent => exact tracks.fresh key created unspent
  · next uncreated =>
    have agrees : change.AgreesOff { change with spent := insert key change.spent } key :=
      ⟨fun _ _ => rfl, fun other apart => by simp [apart]⟩
    rw [agrees.onto_eq base]
    refine congrArg (update _ key) ?_
    simp [onto, not_not.mp uncreated]

end

theorem onto_insert (change : NetChange κ ν) (base : κ → Option ν) (key : κ) (value : ν) :
    (change.edit (.insert key value)).onto base = Edit.apply (change.onto base) (.insert key value) := by
  have agrees : change.AgreesOff (change.edit (.insert key value)) key :=
    ⟨fun other apart => by rw [edit, lookup_insert, if_neg apart], fun _ _ => Iff.rfl⟩
  rw [agrees.onto_eq base]
  exact congrArg (update _ key) (onto_of_created (lookup_insert_self ..) base)

section
variable (tracks : Tracks base removed change)
include tracks

/-- Edits that fit one after the other are admitted, and insert over no base entry not removed before. -/
theorem Tracks.of_fitsAll
    (present : ∀ key ∈ change.spent, base key ≠ none) (fits : Edit.FitsAll (change.onto base) edits) :
    change.AdmitsAll edits ∧ (change.editAll edits).Fits base ∧ Edit.Unhidden base removed edits ∧
      Edit.applyAll (change.onto base) edits = (change.editAll edits).onto base := by
  induction edits generalizing change removed with
  | nil => exact ⟨trivial, ⟨present, tracks.fresh⟩, trivial, rfl⟩
  | cons edit _ ih =>
    obtain ⟨first, later⟩ := fits
    cases edit with
    | remove key =>
      rw [← onto_remove tracks] at later
      have shown : change.created.lookup key ≠ none ∨ key ∉ change.spent ∧ base key ≠ none := by
        by_cases created : change.created.lookup key = none
        · by_cases spent : key ∈ change.spent
          · exact absurd (onto_of_spent created spent base) first
          · rw [Edit.Fits, onto_of_untouched created spent] at first
            exact .inr ⟨spent, first⟩
        · exact .inl created
      have stillPresent : ∀ other ∈ (change.edit (.remove key)).spent, base other ≠ none := by
        intro other member
        rw [edit] at member
        split at member
        · exact present other member
        rename_i uncreated
        obtain rfl | earlier := Finset.mem_insert.mp member
        · exact (shown.resolve_left uncreated).2
        · exact present other earlier
      obtain ⟨admits, fits, unhidden, result⟩ := ih (tracks.remove key) stillPresent later
      refine ⟨⟨shown.imp_right And.left, admits⟩, fits, unhidden, ?_⟩
      rw [onto_remove tracks] at result
      exact result
    | insert key value =>
      rw [← onto_insert] at later
      have free : change.created.lookup key = none := by
        by_contra created
        obtain ⟨_, isOther⟩ := Option.ne_none_iff_exists'.mp created
        rw [Edit.Fits, onto_of_created isOther] at first
        cases first
      have earlier : base key ≠ none → key ∈ removed := by
        intro inBase
        by_cases spent : key ∈ change.spent
        · exact tracks.spent_removed key spent
        · rw [Edit.Fits, onto_of_untouched free spent] at first
          exact absurd first inBase
      obtain ⟨admits, fits, unhidden, result⟩ := ih (tracks.insert value earlier) present later
      refine ⟨⟨free, admits⟩, fits, ⟨earlier, unhidden⟩, ?_⟩
      rw [onto_insert] at result
      exact result

/-- Conversely, admitted edits whose net removals are entries of the base, and that hide none, fit one
after the other. -/
theorem Tracks.fitsAll
    (admits : change.AdmitsAll edits) (present : ∀ key ∈ (change.editAll edits).spent, base key ≠ none)
    (unhidden : Edit.Unhidden base removed edits) : Edit.FitsAll (change.onto base) edits := by
  induction edits generalizing change removed with
  | nil => trivial
  | cons edit rest ih =>
    obtain ⟨first, later⟩ := admits
    cases edit with
    | remove key =>
      refine ⟨?_, ?_⟩
      · cases created : change.created.lookup key with
        | some value =>
          rw [Edit.Fits, onto_of_created created]
          exact Option.some_ne_none value
        | none =>
          have unspent := first.resolve_left (not_not.mpr created)
          rw [Edit.Fits, onto_of_untouched created unspent]
          -- The removal is recorded now, and records last to the end.
          refine present key (spent_subset_editAll (change.edit (.remove key)) rest ?_)
          rw [edit, if_neg (not_not.mpr created)]
          exact Finset.mem_insert_self ..
      · rw [← onto_remove tracks]
        exact ih (tracks.remove key) later present unhidden
    | insert key value =>
      obtain ⟨earlier, unhiddenRest⟩ := unhidden
      refine ⟨?_, ?_⟩
      · by_cases spent : key ∈ change.spent
        · exact onto_of_spent first spent base
        · rw [Edit.Fits, onto_of_untouched first spent]
          by_contra inBase
          exact spent (tracks.recorded key (earlier inBase) inBase)
      · rw [← onto_insert]
        exact ih (tracks.insert value earlier) later present unhiddenRest

theorem Tracks.editAll (unhidden : Edit.Unhidden base removed edits) :
    Tracks base (removed ++ Edit.removedKeys edits) (change.editAll edits) := by
  induction edits generalizing change removed with
  | nil => exact (append_nil removed).symm ▸ tracks
  | cons edit _ ih =>
    cases edit with
    | remove key =>
      have extended := ih (tracks.remove key) unhidden
      rwa [append_assoc] at extended
    | insert _ value => exact ih (tracks.insert value unhidden.1) unhidden.2

end

/-- Edits fit a map one after the other exactly when their net change can be formed, fits the map, and
hides no entry of it. -/
theorem fitsAll_iff : Edit.FitsAll base edits ↔ (∅ : NetChange κ ν).AdmitsAll edits ∧
      ((∅ : NetChange κ ν).editAll edits).Fits base ∧ Edit.Unhidden base [] edits := by
  constructor
  · intro fits
    obtain ⟨admits, netFits, unhidden, -⟩ := (tracks_empty base).of_fitsAll nofun fits
    exact ⟨admits, netFits, unhidden⟩
  · rintro ⟨admits, netFits, unhidden⟩
    exact (tracks_empty base).fitsAll admits netFits.spent_present unhidden

theorem applyAll_eq_onto (fits : Edit.FitsAll base edits) :
    Edit.applyAll base edits = ((∅ : NetChange κ ν).editAll edits).onto base := by
  have result := ((tracks_empty base).of_fitsAll nofun fits).2.2.2
  rwa [onto_empty] at result

/-- Lists that hold a change: its removals once each, and its insertions once each. -/
structure Lists (change : NetChange κ ν) (spent : List κ) (created : List (κ × ν)) : Prop where
  spent_nodup : spent.Nodup
  spent_eq : spent.toFinset = change.spent
  created_nodup : (created.map fst).Nodup
  created_eq : ofList created = change.created

theorem lists_sorted {κ ν : Type} [LinearOrder κ] (change : NetChange κ ν) :
    change.Lists (sortedKeys change.spent) (sortedEntries change.created) where
  spent_nodup := nodup_sortedKeys change.spent
  spent_eq := toFinset_sortedKeys change.spent
  created_nodup := by
    rw [map_fst_sortedEntries]
    exact nodup_sortedKeys _
  created_eq := ofList_sortedEntries change.created

variable {spent : List κ} (lists : change.Lists spent created)
include lists

theorem Lists.mem_spent {key : κ} : key ∈ spent ↔ key ∈ change.spent := by
  rw [← lists.spent_eq, mem_toFinset]

theorem Lists.mem_created {key : κ} : key ∈ created.map fst ↔ change.created.lookup key ≠ none := by
  rw [← lists.created_eq, ne_eq, lookup_ofList_eq_none, not_not]

/-- Removing what a change removes and inserting what it inserts fits exactly when the change does. -/
theorem Lists.applicable_iff : Edit.Applicable base spent created ↔ change.Fits base := by
  constructor
  · intro applicable
    exact ⟨fun key member => applicable.spent_present key (lists.mem_spent.mpr member), fun key isCreated unspent =>
      applicable.created_fresh key (lists.mem_created.mpr isCreated) (mt lists.mem_spent.mp unspent)⟩
  · intro fits
    exact ⟨lists.spent_nodup, fun key member => fits.spent_present key (lists.mem_spent.mp member), lists.created_nodup,
      fun key listed unspent => fits.created_fresh key (lists.mem_created.mp listed) (mt lists.mem_spent.mpr unspent)⟩

theorem Lists.applyAll_eq (base : κ → Option ν) :
    Edit.applyAll base (Edit.ofLists spent created) = change.onto base := by
  funext key
  rw [Edit.applyAll_ofLists _ _ lists.created_nodup, lists.created_eq]
  simp only [onto, lists.mem_spent]
  cases change.created.lookup key <;> rfl

end NetChange

theorem Edit.Applicable.lists {spent : List κ} (applicable : Applicable base spent created) :
    NetChange.Lists ⟨spent.toFinset, ofList created⟩ spent created :=
  ⟨applicable.spent_nodup, rfl, applicable.created_nodup, rfl⟩

end Rbtc.Foundation
