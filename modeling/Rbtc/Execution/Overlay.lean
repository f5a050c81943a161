import Rbtc.Chainstate.RejectedBlock

/-! The block-scoped overlay of a chain store (`UtxoOverlay`), its lock shards one map, and the coin set it
shows over its base: loads leave it as it is, writes edit it, and an undo takes them back. -/

namespace Rbtc.Execution

open Foundation Bitcoin Chainstate

/-- `original` caches coins as first read from the base; `current` holds the keys this overlay modified. -/
structure OverlayState where
  original : Table OutPointKey (Option Utxo)
  current : Table OutPointKey (Option Utxo)

structure UtxoChanges where
  spent : List OutPointKey
  created : List CoinEntry
  undo : UtxoUndo
  deriving DecidableEq, Repr

namespace OverlayState

def empty : OverlayState := ⟨∅, ∅⟩

def cached (state : OverlayState) (outpoint : OutPointKey) : Option (Option Utxo) :=
  (state.current.lookup outpoint).or (state.original.lookup outpoint)

variable (base : CoinMap)

def load (state : OverlayState) (outpoint : OutPointKey) : Option Utxo × OverlayState :=
  match state.cached outpoint with
  | some value => (value, state)
  | none => (base outpoint, { state with original := state.original.insert outpoint (base outpoint) })

/-- Records the pre-image of a key that was never read as absent. -/
def remember (state : OverlayState) (outpoint : OutPointKey) : Table OutPointKey (Option Utxo) :=
  match state.original.lookup outpoint with
  | some _ => state.original
  | none => state.original.insert outpoint none

def write (state : OverlayState) (outpoint : OutPointKey) (value : Option Utxo) : OverlayState :=
  { original := state.remember outpoint
    current := state.current.insert outpoint value }

def writeSpent (state : OverlayState) (outpoint : OutPointKey) : OverlayState := state.write outpoint none

def writeCreated (state : OverlayState) (coin : CoinEntry) : OverlayState := state.write coin.1 (some coin.2)

def writeAll (state : OverlayState) (spent : List OutPointKey) (created : List CoinEntry) :
    OverlayState :=
  created.foldl writeCreated (spent.foldl writeSpent state)

/-- The spent keys of a mutation while they are checked: keys seen and records to restore. -/
structure Spending where
  seenSpent : Finset OutPointKey
  undoSpent : List CoinEntry
  state : OverlayState

/-- The spend check of `apply_with_undo`, which loads the coin. -/
def spendLoaded (spending : Spending) (outpoint : OutPointKey) : Except UtxoError Spending := do
  ensure (outpoint ∉ spending.seenSpent) (.duplicateSpend outpoint)
  let (found, state) := load base spending.state outpoint
  let previous ← require found (.missing outpoint)
  return ⟨insert outpoint spending.seenSpent, spending.undoSpent ++ [(outpoint, previous)], state⟩

/-- The spend check of the fresh-output path, which only consults the cache. -/
def spendCached (spending : Spending) (entry : CoinEntry) : Except UtxoError Spending := do
  ensure (entry.1 ∉ spending.seenSpent) (.duplicateSpend entry.1)
  ensure (∃ value ∈ spending.state.cached entry.1, value ≠ none) (.missing entry.1)
  return { spending with
    seenSpent := insert entry.1 spending.seenSpent
    undoSpent := spending.undoSpent ++ [entry] }

/-- The creation check of `apply_with_undo`; a key the mutation spends may be created again. -/
def createLoaded (seenSpent : Finset OutPointKey) (creating : Finset OutPointKey × OverlayState)
    (outpoint : OutPointKey) : Except UtxoError (Finset OutPointKey × OverlayState) := do
  ensure (outpoint ∉ creating.1) (.duplicate outpoint)
  if outpoint ∈ seenSpent then return (insert outpoint creating.1, creating.2)
  else do
    let (found, state) := load base creating.2 outpoint
    ensure (found = none) (.duplicate outpoint)
    return (insert outpoint creating.1, state)

/-- The creation check of the fresh-output path: only a cached coin is a collision. -/
def createCached (seenSpent : Finset OutPointKey) (state : OverlayState)
    (seenCreated : Finset OutPointKey) (outpoint : OutPointKey) :
    Except UtxoError (Finset OutPointKey) := do
  ensure (outpoint ∉ seenCreated) (.duplicate outpoint)
  ensure (outpoint ∈ seenSpent ∨ ∀ value ∈ state.cached outpoint, value = none) (.duplicate outpoint)
  return insert outpoint seenCreated

def applyWithUndo (state : OverlayState) (spent : List OutPointKey)
    (created : List CoinEntry) : Except UtxoError (UtxoUndo × OverlayState) := do
  let spending ← foldOutcome (spendLoaded base) ⟨∅, [], state⟩ spent
  let (_, loaded) ← foldOutcome (createLoaded base spending.seenSpent) (∅, spending.state)
    (created.map Prod.fst)
  return (⟨spending.undoSpent, created.map Prod.fst⟩, loaded.writeAll spent created)

def applyWithUndoFreshOutputsFromPrevouts (state : OverlayState) (spent : List OutPointKey)
    (prevouts : List Utxo) (created : List CoinEntry) :
    Except UtxoError (UtxoUndo × OverlayState) := do
  ensure (prevouts.length = spent.length) (.malformed "prevout count does not match spent count")
  let spending ← foldOutcome spendCached ⟨∅, [], state⟩ (spent.zip prevouts)
  let _ ← foldOutcome (createCached spending.seenSpent spending.state) ∅ (created.map Prod.fst)
  return (⟨spending.undoSpent, created.map Prod.fst⟩, spending.state.writeAll spent created)

/-- The first loop of `undo`: a coin to restore must be absent. -/
def undoAbsent (state : OverlayState) (entry : CoinEntry) : Except UtxoError OverlayState := do
  let (found, next) := load base state entry.1
  ensure (found = none) (.duplicate entry.1)
  return next

def undo (state : OverlayState) (undo : UtxoUndo) : Except UtxoError OverlayState := do
  let checked ← foldOutcome (undoAbsent base) state undo.spent
  let removed := undo.created.foldl (fun current outpoint =>
    (load base current outpoint).2.writeSpent outpoint) checked
  return undo.spent.foldl writeCreated removed

def utxoStore : UtxoStore OverlayState where
  get := load base
  applyWithUndoFreshOutputsFromPrevouts := applyWithUndoFreshOutputsFromPrevouts
  undo := undo base

def netChange (state : OverlayState) (changes : UtxoChanges) (entry : OutPointKey × Option Utxo) :
    Except UtxoError UtxoChanges := do
  let original ← require (state.original.lookup entry.1) (.malformed "overlay original value")
  if original = entry.2 then return changes
  else
    let (spent, undoSpent) := match original with
      | some coin => (changes.spent ++ [entry.1], changes.undo.spent ++ [(entry.1, coin)])
      | none => (changes.spent, changes.undo.spent)
    let created := match entry.2 with
      | some coin => changes.created ++ [(entry.1, coin)]
      | none => changes.created
    return ⟨spent, created, ⟨undoSpent, created.map Prod.fst⟩⟩

/-- The source walks the modified keys in hash order and sorts the lists; this walk is in key order. -/
def netChanges (state : OverlayState) : Except UtxoError UtxoChanges :=
  foldOutcome (netChange state) ⟨[], [], ⟨[], []⟩⟩ (sortedEntries state.current)

open List Table Edit

variable {base : CoinMap} {state : OverlayState}

/-- The map that `get` answers from. -/
def visible (base : CoinMap) (state : OverlayState) (key : OutPointKey) : Option Utxo :=
  (state.cached key).getD (base key)

def loadAll (base : CoinMap) (state : OverlayState) (keys : List OutPointKey) : OverlayState :=
  keys.foldl (fun current key => (load base current key).2) state

section
variable (key : OutPointKey)

theorem load_fst : (load base state key).1 = state.visible base key := by
  unfold load visible
  cases state.cached key <;> rfl

theorem visible_load : (load base state key).2.visible base = state.visible base := by
  funext other
  unfold load
  cases known : state.cached key with
  | some _ => rfl
  | none =>
    obtain ⟨unchanged, unread⟩ := Option.or_eq_none_iff.mp known
    simp only [visible, cached, lookup_insert]
    split
    · next same => simp [same, unread]
    · rfl

variable (keys : List OutPointKey)
include keys

theorem visible_loadAll : (loadAll base state keys).visible base = state.visible base := by
  induction keys generalizing state with
  | nil => rfl
  | cons key _ ih => exact ih.trans (visible_load key)

theorem loadAll_concat : loadAll base state (keys ++ [key]) = (load base (loadAll base state keys) key).2 :=
  foldl_concat ..

theorem load_loadAll : (load base (loadAll base state keys) key).1 = state.visible base key := by
  rw [load_fst, visible_loadAll]

end

theorem lookup_remember (key other : OutPointKey) : (state.remember key).lookup other =
      if other = key then some ((state.original.lookup key).getD none) else state.original.lookup other := by
  unfold remember
  cases known : state.original.lookup key with
  | some _ =>
    by_cases same : other = key
    · rw [if_pos same, same, known, Option.getD_some]
    · rw [if_neg same]
  | none => exact lookup_insert ..

theorem visible_write (key : OutPointKey) (value : Option Utxo) :
    (state.write key value).visible base = Function.update (state.visible base) key value := by
  funext other
  by_cases same : other = key
  · simp [same, visible, cached, write]
  · simp [same, visible, cached, write, lookup_insert, lookup_remember]

/-- A pass over items, each of which edits the visible map. -/
theorem visible_foldl {α : Type} (write : OverlayState → α → OverlayState) (edit : α → Edit OutPointKey Utxo)
    (writes : ∀ state item, (write state item).visible base = (edit item).apply (state.visible base))
    (state : OverlayState) (items : List α) :
    (items.foldl write state).visible base = applyAll (state.visible base) (items.map edit) := by
  rw [applyAll, foldl_map]
  exact (foldl_hom (visible base) fun state item => (writes state item).symm).symm

theorem visible_writeAll (state : OverlayState) (spent : List OutPointKey) (created : List CoinEntry) :
    (state.writeAll spent created).visible base = applyAll (state.visible base) (ofLists spent created) := by
  rw [writeAll, visible_foldl writeCreated ofEntry fun _ coin => visible_write coin.1 (some coin.2),
    visible_foldl writeSpent remove fun _ key => visible_write key none, ofLists, applyAll_append]

theorem visible_undone (state : OverlayState) (undo : UtxoUndo) : (undo.spent.foldl writeCreated (undo.created.foldl
      (fun current outpoint => (load base current outpoint).2.writeSpent outpoint) state)).visible base =
      applyAll (state.visible base) (ofLists undo.created undo.spent) := by
  have removes : ∀ (current : OverlayState) outpoint,
      ((load base current outpoint).2.writeSpent outpoint).visible base =
      apply (current.visible base) (.remove outpoint) := by
    intro current outpoint
    rw [writeSpent, visible_write, visible_load, apply]
  rw [visible_foldl writeCreated ofEntry fun _ coin => visible_write coin.1 (some coin.2),
    visible_foldl _ remove removes, ofLists,
    applyAll_append]

variable {keys : List OutPointKey}

theorem foldOutcome_spendLoaded {final : Spending} : foldOutcome (spendLoaded base) ⟨∅, [], state⟩ keys = .ok final ↔
      (keys.Nodup ∧ ∀ key ∈ keys, state.visible base key ≠ none) ∧
      final = ⟨keys.toFinset, entriesOf (state.visible base) keys, loadAll base state keys⟩ := by
  refine (foldOutcome_distinct id (state.visible base · ≠ none) (fun keys =>
    Spending.mk keys.toFinset (entriesOf (state.visible base) keys) (loadAll base state keys))
    fun front key next _ _ => ?_).trans (by rw [map_id])
  simp only [spendLoaded, load_loadAll, bind_eq_ok, ensure_eq_ok, require_eq_ok, pure_eq_ok, id, loadAll_concat]
  cases found : state.visible base key with
  | none => simp
  | some _ => simp [entriesOf, found, eq_comm]

theorem foldOutcome_createLoaded {seenSpent : Finset OutPointKey} {final : Finset OutPointKey × OverlayState} :
    foldOutcome (createLoaded base seenSpent) (∅, state) keys = .ok final ↔
      (keys.Nodup ∧ ∀ key ∈ keys, key ∉ seenSpent → state.visible base key = none) ∧
      final = (keys.toFinset, loadAll base state (keys.filter (· ∉ seenSpent))) := by
  refine (foldOutcome_distinct id (fun key => key ∉ seenSpent → state.visible base key = none)
    (fun keys => (keys.toFinset, loadAll base state (keys.filter (· ∉ seenSpent))))
    fun front key next _ _ => ?_).trans (by rw [map_id])
  unfold createLoaded
  by_cases spent : key ∈ seenSpent
  · simp only [if_pos spent, bind_eq_ok, ensure_eq_ok, pure_eq_ok]
    simp [spent, eq_comm]
  · simp only [if_neg spent, load_loadAll, bind_eq_ok, ensure_eq_ok, pure_eq_ok]
    simp [spent, and_assoc, eq_comm, loadAll_concat]

theorem foldOutcome_undoAbsent {entries : List CoinEntry} {next : OverlayState} :
    foldOutcome (undoAbsent base) state entries = .ok next ↔
      (∀ key ∈ entries.map Prod.fst, state.visible base key = none) ∧
      next = loadAll base state (entries.map Prod.fst) := by
  induction entries generalizing state with
  | nil => simp [loadAll, eq_comm]
  | cons _ _ ih =>
    simp only [foldOutcome_cons, undoAbsent, load_fst, bind_eq_ok, ensure_eq_ok, pure_eq_ok, exists_const, and_assoc,
      exists_and_left, exists_eq_left', ih, visible_load, map_cons, forall_mem_cons]
    rfl

theorem undo_eq_ok {undo : UtxoUndo} {next : OverlayState} : state.undo base undo = .ok next ↔
    (∀ key ∈ undo.spent.map Prod.fst, state.visible base key = none) ∧ next = undo.spent.foldl writeCreated
      (undo.created.foldl (fun current outpoint => (load base current outpoint).2.writeSpent outpoint)
        (loadAll base state (undo.spent.map Prod.fst))) := by
  simp only [OverlayState.undo, bind_eq_ok, foldOutcome_undoAbsent, pure_eq_ok, and_assoc, exists_and_left,
    exists_eq_left]
  exact and_congr_right fun _ => eq_comm

end OverlayState

open OverlayState Table List Mutation Prod

/-- The overlay's state shows these coins over the base, with the hidden keys of the base. -/
structure Overlays (base : CoinTable) (hidden : Finset OutPointKey)
    (state : OverlayState) (coins : CoinTable) : Prop where
  shows : ∀ key, state.visible base.lookup key = coins.lookup key
  original : ∀ key value, state.original.lookup key = some value →
    value = if key ∈ hidden then none else base.lookup key
  modified : ∀ key, state.current.lookup key ≠ none → state.original.lookup key ≠ none
  hidden_modified : ∀ key ∈ hidden, state.current.lookup key ≠ none

variable {base coins : CoinTable} {hidden : Finset OutPointKey} {state : OverlayState}

theorem load_retains (base : CoinMap) :
    Query.Retains (load base) fun state key => state.cached key ≠ none where
  learns state key := by
    unfold load
    cases known : state.cached key with
    | some _ => simp only [known]; exact Option.some_ne_none _
    | none => simp [cached]
  keeps state key other known := by
    unfold load
    cases state.cached key with
    | some _ => exact known
    | none =>
      intro absent
      apply known
      rw [cached, Option.or_eq_none_iff] at absent ⊢
      obtain ⟨unchanged, unread⟩ := absent
      rw [lookup_insert] at unread
      split at unread
      · cases unread
      · exact ⟨unchanged, unread⟩

theorem foldOutcome_spendCached {final : OverlayState.Spending} {entries : List CoinEntry} :
    foldOutcome spendCached ⟨∅, [], state⟩ entries = .ok final ↔
      ((entries.map fst).Nodup ∧ ∀ key ∈ entries.map fst, ∃ value ∈ state.cached key, value ≠ none) ∧
      final = ⟨(entries.map fst).toFinset, entries, state⟩ := by
  refine foldOutcome_distinct fst (fun key => ∃ value ∈ state.cached key, value ≠ none)
    (fun entries => OverlayState.Spending.mk (entries.map fst).toFinset entries state)
    fun front entry next _ _ => ?_
  simp only [spendCached, bind_eq_ok, ensure_eq_ok, pure_eq_ok, and_assoc]
  simp [eq_comm]

theorem foldOutcome_createCached {seenSpent final : Finset OutPointKey} {keys : List OutPointKey} :
    foldOutcome (createCached seenSpent state) ∅ keys = .ok final ↔
      (keys.Nodup ∧ ∀ key ∈ keys, key ∈ seenSpent ∨ ∀ value ∈ state.cached key, value = none) ∧
      final = keys.toFinset := by
  refine (foldOutcome_distinct id (fun key => key ∈ seenSpent ∨ ∀ value ∈ state.cached key, value = none)
    toFinset fun front key next _ _ => ?_).trans (by rw [List.map_id])
  simp only [createCached, bind_eq_ok, ensure_eq_ok, pure_eq_ok, and_assoc]
  simp [eq_comm]

theorem applyFresh_eq_ok {spent : List OutPointKey} {prevouts : List Utxo}
    {created : List CoinEntry} {result : UtxoUndo × OverlayState}
    (lengths : prevouts.length = spent.length) (spentNodup : spent.Nodup)
    (known : ∀ key ∈ spent, ∃ value ∈ state.cached key, value ≠ none) (createdNodup : (created.map fst).Nodup) :
    state.applyWithUndoFreshOutputsFromPrevouts spent prevouts created = .ok result ↔
      (∀ key ∈ created.map fst, key ∈ spent ∨ ∀ value ∈ state.cached key, value = none) ∧
        result = (⟨spent.zip prevouts, created.map fst⟩, state.writeAll spent created) := by
  have keys : (spent.zip prevouts).map fst = spent := map_fst_zip lengths.ge
  simp only [applyWithUndoFreshOutputsFromPrevouts, bind_eq_ok, ensure_eq_ok, pure_eq_ok,
    foldOutcome_spendCached, keys, spentNodup, true_and, and_assoc, exists_const, exists_and_left, exists_eq_left,
    foldOutcome_createCached, createdNodup, mem_toFinset, lengths, and_iff_right known]
  exact and_congr_right fun _ => eq_comm

def undoOf (mutation : Mutation OutPointKey Utxo) : UtxoUndo := ⟨mutation.spent, mutation.createdKeys⟩

def removes (state : OverlayState) (entry : OutPointKey × Option Utxo) : Bool :=
  decide (state.original.lookup entry.1 ≠ some none ∧ state.original.lookup entry.1 ≠ some entry.2)

/-- The coin a modified key ends with, unless its pre-image is that coin. -/
def inserts (state : OverlayState) (entry : OutPointKey × Option Utxo) : Option CoinEntry :=
  if state.original.lookup entry.1 = some entry.2 then none else entry.2.map (entry.1, ·)

theorem foldOutcome_netChange {state : OverlayState} {entries : List (OutPointKey × Option Utxo)}
    (known : ∀ key ∈ entries.map fst, state.original.lookup key ≠ none) (changes : UtxoChanges) :
    ∃ final, foldOutcome (netChange state) changes entries = .ok final ∧
      final.spent = changes.spent ++ (entries.filter (removes state)).map fst ∧
      final.created = changes.created ++ entries.filterMap (inserts state) := by
  induction entries generalizing changes with
  | nil => exact ⟨changes, rfl, by simp, by simp⟩
  | cons entry _ ih =>
    obtain ⟨knownFirst, knownRest⟩ := forall_mem_cons.mp known
    obtain ⟨original, found⟩ := Option.ne_none_iff_exists'.mp knownFirst
    obtain ⟨next, stepped, spent, created⟩ : ∃ next, netChange state changes entry = .ok next ∧
        next.spent = changes.spent ++ ([entry].filter (removes state)).map fst ∧
        next.created = changes.created ++ [entry].filterMap (inserts state) := by
      simp only [netChange, found, require, ok_bind]
      by_cases same : original = entry.2
      · refine ⟨changes, by rw [if_pos same]; rfl, ?_, ?_⟩
        · simp [removes, found, same]
        · simp [inserts, found, same]
      refine ⟨_, by rw [if_neg same]; rfl, ?_, ?_⟩
      · cases original with
        | none => simp [removes, found]
        | some coin => simp [removes, found, same]
      cases ends : entry.2 with
      | none => simp [inserts, ends]
      | some coin =>
        have differs : original ≠ some coin := ends ▸ same
        simp [inserts, found, ends, differs]
    obtain ⟨final, folded, finalSpent, finalCreated⟩ := ih knownRest next
    refine ⟨final, ?_, ?_, ?_⟩
    · rw [foldOutcome_cons, stepped]
      exact folded
    · rw [finalSpent, spent, append_assoc, ← map_append, ← filter_append, singleton_append]
    · rw [finalCreated, created, append_assoc, ← filterMap_append, singleton_append]

theorem mem_sortedEntries {table : Table OutPointKey (Option Utxo)} {entry : OutPointKey × Option Utxo} :
    entry ∈ sortedEntries table ↔ table.lookup entry.1 = some entry.2 := by
  constructor
  · exact lookup_of_mem_entriesAt
  · intro found
    apply mem_of_lookup_ofList
    rw [ofList_sortedEntries, found]

namespace Overlays

theorem empty (base : CoinTable) : Overlays base ∅ .empty base where
  shows key := rfl
  original key value found := by simp [OverlayState.empty] at found
  modified key changed := absurd (lookup_empty key) changed
  hidden_modified key member := absurd member (Finset.notMem_empty key)

variable {key : OutPointKey}

section
variable (overlays : Overlays base hidden state coins)
include overlays

theorem cached_eq_none : state.cached key = none ↔ state.original.lookup key = none := by
  rw [cached, Option.or_eq_none_iff]
  constructor
  · exact fun both => both.2
  intro absent
  refine ⟨?_, absent⟩
  by_contra changed
  exact overlays.modified key changed absent

theorem uncached (absent : state.original.lookup key = none) : coins.lookup key = base.lookup key := by
  rw [← overlays.shows key, visible, overlays.cached_eq_none.mpr absent, Option.getD_none]

theorem not_hidden (absent : state.original.lookup key = none) : key ∉ hidden := fun member =>
  overlays.modified key (overlays.hidden_modified key member) absent

theorem visible_eq : state.visible base.lookup = coins.lookup := funext overlays.shows

end

theorem load (overlays : Overlays base hidden state coins) (key : OutPointKey) :
    (load base.lookup state key).1 = coins.lookup key ∧ Overlays base hidden (load base.lookup state key).2 coins := by
  have shows : (OverlayState.load base.lookup state key).2.visible base.lookup = coins.lookup :=
    (visible_load key).trans overlays.visible_eq
  refine ⟨(load_fst key).trans (overlays.shows key), ?_⟩
  unfold OverlayState.load at shows ⊢
  cases known : state.cached key with
  | some value => exact overlays
  | none =>
    rw [known] at shows
    refine ⟨congrFun shows, fun other value found => ?_, fun other changed => ?_, overlays.hidden_modified⟩
    · have absent := overlays.cached_eq_none.mp known
      rw [lookup_insert] at found
      by_cases same : other = key
      · rw [if_pos same, Option.some.injEq] at found
        rw [same, if_neg (overlays.not_hidden absent), found]
      · rw [if_neg same] at found
        exact overlays.original other value found
    · rw [lookup_insert]
      split
      · exact Option.some_ne_none _
      · exact overlays.modified other changed

theorem answers (base coins : CoinTable) (hidden : Finset OutPointKey) :
    Query.Answers (OverlayState.load base.lookup) (fun state => Overlays base hidden state coins) coins.lookup where
  value _ key overlays := (overlays.load key).1
  keeps _ key overlays := (overlays.load key).2

/-- The keys of a list that the overlay has not read and the base holds. -/
def hides (base : CoinTable) (state : OverlayState) (keys : List OutPointKey) :
    Finset OutPointKey :=
  keys.toFinset.filter fun key => state.original.lookup key = none ∧ base.lookup key ≠ none

theorem mem_hides {keys : List OutPointKey} {key : OutPointKey} : key ∈ hides base state keys ↔
      key ∈ keys ∧ state.original.lookup key = none ∧ base.lookup key ≠ none := by
  rw [hides, Finset.mem_filter, mem_toFinset]

section
variable (overlays : Overlays base hidden state coins)
include overlays

/-- A write shows its value, and hides the coin of the base if the key was never read. -/
theorem write {written : CoinTable} {key : OutPointKey} {value : Option Utxo}
    (puts : ∀ other, written.lookup other = if other = key then value else coins.lookup other) :
    Overlays base (hidden ∪ hides base state [key]) (state.write key value) written := by
  constructor
  · intro other
    rw [visible_write, Function.update_apply, puts, overlays.shows]
  · intro other found isFound
    rw [OverlayState.write, OverlayState.lookup_remember] at isFound
    simp only [Finset.mem_union, mem_hides, mem_singleton]
    by_cases same : other = key
    · subst same
      rw [if_pos rfl, Option.some.injEq] at isFound
      cases known : state.original.lookup other with
      | some read =>
        rw [known] at isFound
        simp only [reduceCtorEq, false_and, and_false, or_false]
        exact isFound ▸ overlays.original other read known
      | none =>
        rw [known] at isFound
        cases held : base.lookup other with
        | some _ => simp [← isFound]
        | none => simp [← isFound]
    · rw [if_neg same] at isFound
      simp only [same, false_and, or_false]
      exact overlays.original other found isFound
  · intro other changed
    rw [OverlayState.write, OverlayState.lookup_remember]
    rw [OverlayState.write, lookup_insert] at changed
    split
    · exact Option.some_ne_none _
    · next different =>
      rw [if_neg different] at changed
      exact overlays.modified other changed
  · intro other member
    rw [OverlayState.write, lookup_insert]
    split
    · exact Option.some_ne_none _
    · next different =>
      rw [Finset.mem_union, mem_hides, mem_singleton] at member
      exact overlays.hidden_modified other (member.resolve_right fun new => different new.1)

omit overlays in
theorem hides_write (key : OutPointKey) (value : Option Utxo) (keys : List OutPointKey) :
    hides base state [key] ∪ hides base (state.write key value) keys = hides base state (key :: keys) := by
  ext other
  simp only [Finset.mem_union, mem_hides, OverlayState.write, OverlayState.lookup_remember]
  by_cases same : other = key
  · simp [same]
  · simp [same]

omit overlays in
theorem hides_known {keys : List OutPointKey} (known : ∀ key ∈ keys, state.original.lookup key ≠ none) :
    hides base state keys = ∅ := by
  refine Finset.eq_empty_of_forall_notMem fun key member => ?_
  obtain ⟨isKey, unread, -⟩ := mem_hides.mp member
  exact known key isKey unread

theorem foldl_write (edits : List (Edit OutPointKey Utxo)) :
    Overlays base (hidden ∪ hides base state (edits.map Edit.key))
      (edits.foldl (fun current edit => current.write edit.key edit.value) state)
      (edits.foldl (fun coins edit => coins.alter edit.key edit.value) coins) := by
  induction edits generalizing state coins hidden with
  | nil => simpa [hides] using overlays
  | cons edit _ ih =>
    have kept := ih (overlays.write fun other => lookup_alter coins edit.key other edit.value)
    rwa [Finset.union_assoc, hides_write] at kept

theorem writeAll {spent : List OutPointKey} (created : List CoinEntry)
    (known : ∀ key ∈ spent, state.original.lookup key ≠ none) :
    Overlays base (hidden ∪ hides base state (created.map fst)) (state.writeAll spent created)
      ((coins.eraseAll spent).insertAll created) := by
  have written := overlays.foldl_write (Edit.ofLists spent created)
  have unread : hides base state ((Edit.ofLists spent created).map Edit.key) = hides base state (created.map fst) := by
    ext key
    simp only [mem_hides, Edit.ofLists, map_append, List.map_map, mem_append, or_and_right]
    refine or_iff_right ?_
    rintro ⟨listed, fresh, -⟩
    exact known key (by simpa [Edit.key] using listed) fresh
  rw [unread, Edit.ofLists, foldl_append, foldl_append, foldl_map, foldl_map, foldl_map, foldl_map] at written
  exact written

theorem removeAll {spent : List OutPointKey} (known : ∀ key ∈ spent, state.original.lookup key ≠ none) :
    Overlays base hidden (spent.foldl OverlayState.writeSpent state) (coins.eraseAll spent) := by
  have written := overlays.writeAll [] known
  rwa [map_nil, show hides base state [] = ∅ from rfl, Finset.union_empty] at written

theorem restoreAll {entries : List CoinEntry}
    (known : ∀ key ∈ entries.map fst, state.original.lookup key ≠ none) :
    Overlays base hidden (entries.foldl OverlayState.writeCreated state) (coins.insertAll entries) := by
  have written := overlays.writeAll entries (forall_mem_nil _)
  rwa [hides_known known, Finset.union_empty] at written

theorem known_of_cached {key : OutPointKey} (cached : state.cached key ≠ none) : state.original.lookup key ≠ none :=
  fun absent => cached (overlays.cached_eq_none.mpr absent)

variable {context : TransactionContext} {transaction : Transaction} {txid : Txid} {prepared : PreparedTransaction}

section
variable (prepares : Prepares context transaction txid coins.lookup prepared)
  (known : ∀ key ∈ prepared.spent, state.cached key ≠ none)
include prepares known

theorem spent_cached : ∀ key ∈ prepared.spent, ∃ value ∈ state.cached key, value ≠ none := by
  intro key member
  obtain ⟨value, cached⟩ := Option.ne_none_iff_exists'.mp (known key member)
  refine ⟨value, cached, ?_⟩
  rw [← prepares.spentKeys] at member
  obtain ⟨entry, isEntry, rfl⟩ := mem_map.mp member
  have shown := overlays.shows entry.1
  rw [visible, cached, Option.getD_some, prepares.spent_present entry isEntry] at shown
  exact shown ▸ Option.some_ne_none _

/-- What the fresh-output path accepts hides the unread coins of the base it creates again. -/
theorem valid_hides (free : ∀ key ∈ prepared.created.map fst, key ∈ prepared.spent ∨
      ∀ value ∈ state.cached key, value = none) :
    prepared.mutation.Valid base (hides base state prepared.mutation.createdKeys) coins ∧
      Disjoint hidden (hides base state prepared.mutation.createdKeys) := by
  constructor
  · apply prepares.valid
    · intro key created unspent shown
      have absent := (free key created).resolve_left unspent
      rw [← overlays.shows key, visible]
      cases cached : state.cached key with
      | some value => exact absent value cached
      | none =>
        by_contra present
        exact shown (mem_hides.mpr ⟨created, overlays.cached_eq_none.mp cached, present⟩)
    · intro key member
      obtain ⟨created, unread, _⟩ := mem_hides.mp member
      exact ⟨created, fun spent => overlays.known_of_cached (known key spent) unread⟩
    · intro key member
      obtain ⟨_, unread, present⟩ := mem_hides.mp member
      exact ⟨overlays.uncached unread, present⟩
  · rw [Finset.disjoint_left]
    intro key before now
    exact overlays.not_hidden (mem_hides.mp now).2.1 before

end

theorem load_known (key : OutPointKey)
    {other : OutPointKey} (known : state.original.lookup other ≠ none ∨ other = key) :
    (OverlayState.load base.lookup state key).2.original.lookup other ≠ none := by
  apply (overlays.load key).2.known_of_cached
  cases known with
  | inl before =>
    exact (load_retains base.lookup).keeps state key other
      fun absent => before (overlays.cached_eq_none.mp absent)
  | inr same => exact same ▸ (load_retains base.lookup).learns state other

section
variable {entries : List CoinEntry}
  {next : OverlayState} {mutation : Mutation OutPointKey Utxo} {mutations : List (Mutation OutPointKey Utxo)}

theorem loadAll (keys : List OutPointKey) : Overlays base hidden (loadAll base.lookup state keys) coins ∧
      ∀ key, state.original.lookup key ≠ none ∨ key ∈ keys →
        (loadAll base.lookup state keys).original.lookup key ≠ none := by
  induction keys generalizing state with
  | nil => exact ⟨overlays, fun key known => known.resolve_right not_mem_nil⟩
  | cons first _ ih =>
    obtain ⟨kept, known⟩ := ih (overlays.load first).2
    refine ⟨kept, fun key before => known key ?_⟩
    rw [mem_cons, ← or_assoc] at before
    exact before.imp_left (overlays.load_known first)

theorem foldl_removeLoaded (keys : List OutPointKey) :
    let removed := keys.foldl (fun current key =>
      (OverlayState.load base.lookup current key).2.writeSpent key) state
    Overlays base hidden removed (coins.eraseAll keys) ∧
      ∀ key, state.original.lookup key ≠ none → removed.original.lookup key ≠ none := by
  induction keys generalizing state coins with
  | nil => exact ⟨overlays, fun key known => known⟩
  | cons key _ ih =>
    have known := overlays.load_known key (.inr rfl)
    have removed := (overlays.load key).2.removeAll (forall_mem_singleton.mpr known)
    obtain ⟨kept, grows⟩ := ih removed
    refine ⟨kept, fun other before => grows other ?_⟩
    change ((OverlayState.load base.lookup state key).2.remember key).lookup other ≠ none
    rw [OverlayState.lookup_remember]
    split
    · exact Option.some_ne_none _
    · exact overlays.load_known key (.inl before)

theorem undo_eq_ok (undone : state.undo base.lookup (undoOf mutation) = .ok next) :
    mutation.Revertible coins ∧ Overlays base hidden next (mutation.revert coins) := by
  obtain ⟨absent, rfl⟩ := OverlayState.undo_eq_ok.mp undone
  obtain ⟨kept, known⟩ := overlays.loadAll mutation.spentKeys
  obtain ⟨removed, grows⟩ := kept.foldl_removeLoaded mutation.createdKeys
  rw [overlays.visible_eq] at absent
  exact ⟨absent, removed.restoreAll fun key member => grows key (known key (.inr member))⟩

theorem undo_of_revertible (revertible : mutation.Revertible coins) :
    ∃ next, state.undo base.lookup (undoOf mutation) = .ok next := by
  refine ⟨_, OverlayState.undo_eq_ok.mpr ⟨?_, rfl⟩⟩
  rw [overlays.visible_eq]
  exact revertible

theorem undoAll_eq_ok {final : OverlayState} {done : Unit}
    (undone : undoAll (utxoStore base.lookup) (mutations.map undoOf) state = (final, .ok done)) :
    RevertibleAll coins mutations ∧ Overlays base hidden final (revertAll coins mutations) := by
  induction mutations generalizing state coins with
  | nil =>
    cases undone
    exact ⟨trivial, overlays⟩
  | cons _ _ ih =>
    rw [map_cons, undoAll] at undone
    split at undone
    · cases undone
    rename_i next first
    obtain ⟨revertible, kept⟩ := overlays.undo_eq_ok first
    obtain ⟨restRevertible, reverted⟩ := ih kept undone
    exact ⟨⟨revertible, restRevertible⟩, reverted⟩

theorem undoAll_of_revertible (revertible : RevertibleAll coins mutations) :
    ∃ final, undoAll (utxoStore base.lookup) (mutations.map undoOf) state = (final, .ok ()) := by
  induction mutations generalizing state coins with
  | nil => exact ⟨state, rfl⟩
  | cons mutation _ ih =>
    obtain ⟨next, undone⟩ := overlays.undo_of_revertible revertible.1
    obtain ⟨final, folded⟩ := ih (overlays.undo_eq_ok undone).2 revertible.2
    refine ⟨final, ?_⟩
    have stored : (utxoStore base.lookup).undo state (undoOf mutation) = .ok next := undone
    rw [map_cons, undoAll, stored]
    exact folded

end

variable {keys : List OutPointKey}

theorem applyWithUndo_remove (nodup : keys.Nodup) (present : ∀ key ∈ keys, coins.lookup key ≠ none) :
    ∃ next, state.applyWithUndo base.lookup keys [] = .ok (⟨coins.entriesAt keys, []⟩, next) ∧
      Overlays base hidden next (coins.eraseAll keys) := by
  obtain ⟨shown, known⟩ := overlays.loadAll keys
  have folded := OverlayState.foldOutcome_spendLoaded.mpr ⟨⟨nodup, overlays.visible_eq ▸ present⟩, rfl⟩
  refine ⟨(OverlayState.loadAll base.lookup state keys).writeAll keys [], ?_,
    shown.removeAll fun key member => known key (.inr member)⟩
  simp only [OverlayState.applyWithUndo, folded, overlays.visible_eq]
  rfl

end

/-- Net changes key by key: base coins gone or replaced, and coins shown that the base does not have. -/
structure Changes (base : CoinTable) (hidden : Finset OutPointKey) (state : OverlayState)
    (coins : CoinTable) (changes : UtxoChanges) : Prop where
  spent_nodup : changes.spent.Nodup
  created_nodup : (changes.created.map fst).Nodup
  mem_spent : ∀ key, key ∈ changes.spent ↔ state.current.lookup key ≠ none ∧ key ∉ hidden ∧
    base.lookup key ≠ none ∧ base.lookup key ≠ coins.lookup key
  lookup_created : ∀ key, (ofList changes.created).lookup key =
    if state.current.lookup key ≠ none ∧ (if key ∈ hidden then none else base.lookup key) ≠
      coins.lookup key then coins.lookup key else none

section
variable (overlays : Overlays base hidden state coins)
include overlays

theorem preimage {key : OutPointKey} {value : Option Utxo}
    (changed : state.current.lookup key = some value) : state.original.lookup key =
      some (if key ∈ hidden then none else base.lookup key) ∧ coins.lookup key = value := by
  obtain ⟨original, found⟩ := Option.ne_none_iff_exists'.mp
    (overlays.modified key (changed ▸ Option.some_ne_none value))
  refine ⟨by rw [found, overlays.original key original found], ?_⟩
  rw [← overlays.shows key, visible, cached, changed, Option.some_or, Option.getD_some]

theorem unmodified {key : OutPointKey}
    (unchanged : state.current.lookup key = none) : key ∉ hidden ∧ coins.lookup key = base.lookup key := by
  have shown : key ∉ hidden := fun member => overlays.hidden_modified key member unchanged
  refine ⟨shown, ?_⟩
  rw [← overlays.shows key, visible, cached, unchanged, Option.none_or]
  cases found : state.original.lookup key with
  | none => rfl
  | some original => rw [Option.getD_some, overlays.original key original found, if_neg shown]

theorem netChanges_eq_ok : ∃ changes, state.netChanges = .ok changes ∧ Changes base hidden state coins changes := by
  have known : ∀ key ∈ (sortedEntries state.current).map fst, state.original.lookup key ≠ none := by
    intro key member
    obtain ⟨entry, isEntry, rfl⟩ := mem_map.mp member
    apply overlays.modified
    rw [mem_sortedEntries.mp isEntry]
    exact Option.some_ne_none _
  obtain ⟨changes, computed, spent, created⟩ := foldOutcome_netChange known ⟨[], [], ⟨[], []⟩⟩
  rw [nil_append] at spent created
  have keyNodup : ((sortedEntries state.current).map fst).Nodup := by
    rw [map_fst_sortedEntries]
    exact nodup_sortedKeys _
  have keepsKeys : ∀ entry kept, inserts state entry = some kept → kept.1 = entry.1 := by
    intro entry kept isKept
    unfold inserts at isKept
    split at isKept
    · cases isKept
    · obtain ⟨_, _, rfl⟩ := Option.map_eq_some_iff.mp isKept
      rfl
  refine ⟨changes, computed, ?_, ?_, ?_, ?_⟩
  · rw [spent]
    exact keyNodup.sublist (filter_sublist.map _)
  · rw [created]
    exact keyNodup.sublist (map_fst_filterMap_sublist keepsKeys)
  · intro key
    have listed : key ∈ changes.spent ↔
        ∃ value, state.current.lookup key = some value ∧ removes state (key, value) = true := by
      rw [spent, mem_map]
      constructor
      · rintro ⟨entry, member, rfl⟩
        obtain ⟨isEntry, removed⟩ := mem_filter.mp member
        exact ⟨entry.2, mem_sortedEntries.mp isEntry, removed⟩
      · rintro ⟨value, changed, removed⟩
        exact ⟨(key, value), mem_filter.mpr ⟨mem_sortedEntries.mpr changed, removed⟩, rfl⟩
    rw [listed]
    cases changed : state.current.lookup key with
    | none => simp
    | some value =>
      obtain ⟨original, shown⟩ := overlays.preimage changed
      simp only [removes, original, shown]
      by_cases isHidden : key ∈ hidden <;> simp [isHidden]
  · intro key
    rw [created, lookup_ofList_filterMap keepsKeys keyNodup, ofList_sortedEntries]
    cases changed : state.current.lookup key with
    | none => simp
    | some value =>
      obtain ⟨original, shown⟩ := overlays.preimage changed
      rw [Option.bind_some, inserts, original, shown]
      by_cases same : (if key ∈ hidden then none else base.lookup key) = value
      · simp [same]
      · cases value with
        | none => simp
        | some _ => simp [same]

end

namespace Changes

variable {changes : UtxoChanges}

variable (isChange : Changes base hidden state coins changes) (overlays : Overlays base hidden state coins)
include isChange overlays

theorem applicable_iff (present : ∀ key ∈ hidden, base.lookup key ≠ none) :
    Edit.Applicable base.lookup changes.spent changes.created ↔ ∀ key ∈ hidden, coins.lookup key = none := by
  have mem_created : ∀ key, key ∈ changes.created.map fst ↔ state.current.lookup key ≠ none ∧
      (if key ∈ hidden then none else base.lookup key) ≠ coins.lookup key ∧ coins.lookup key ≠ none := by
    intro key
    rw [← not_iff_not, ← lookup_ofList_eq_none, isChange.lookup_created key, ite_eq_right_iff]
    tauto
  constructor
  · intro applicable key member
    by_contra shown
    have changed := overlays.hidden_modified key member
    have created : key ∈ changes.created.map fst := by
      rw [mem_created, if_pos member]
      exact ⟨changed, fun same => shown same.symm, shown⟩
    have unspent : key ∉ changes.spent := fun spent => ((isChange.mem_spent key).mp spent).2.1 member
    exact present key member (applicable.created_fresh key created unspent)
  · intro absent
    refine ⟨isChange.spent_nodup, fun key member => ((isChange.mem_spent key).mp member).2.2.1,
      isChange.created_nodup, fun key member unspent => ?_⟩
    obtain ⟨changed, differs, shown⟩ := (mem_created key).mp member
    by_contra held
    have isShown : key ∉ hidden := fun hides => shown (absent key hides)
    rw [if_neg isShown] at differs
    exact unspent ((isChange.mem_spent key).mpr ⟨changed, isShown, held, differs⟩)

theorem keeps (absent : ∀ key ∈ hidden, coins.lookup key = none) :
    Keeps base hidden coins ((base.eraseAll changes.spent).insertAll changes.created) := by
  have result : ∀ key, ((base.eraseAll changes.spent).insertAll changes.created).lookup key =
      if key ∈ hidden then base.lookup key else coins.lookup key := by
    intro key
    rw [lookup_insertAll _ isChange.created_nodup, lookup_eraseAll, isChange.lookup_created key]
    simp only [isChange.mem_spent key]
    by_cases member : key ∈ hidden
    · simp [member, absent key member]
    cases changed : state.current.lookup key with
    | none => simp [(overlays.unmodified changed).2]
    | some _ =>
      by_cases same : base.lookup key = coins.lookup key
      · simp [member, same]
      cases held : base.lookup key with
      | none =>
        simp [member]
      | some _ =>
        rw [held] at same
        simp [member, same]
  constructor
  · exact absent
  · exact fun key member => by rw [result, if_pos member]
  · exact fun key member => by rw [result, if_neg member]

end Changes

end Overlays

open Option

/-- Mutations made one after another, with the records that undo them. -/
inductive Applied {τ : Type} (accepts : τ → UtxoUndo → τ → Prop) : τ → List UtxoUndo → τ → Prop where
  | nil (state : τ) : Applied accepts state [] state
  | concat {first middle last : τ} {undos : List UtxoUndo} {undo : UtxoUndo}
      (before : Applied accepts first undos middle) (accepted : accepts middle undo last) :
      Applied accepts first (undos ++ [undo]) last

theorem Applied.reverts {τ : Type} {store : UtxoStore τ} {shows : τ → CoinMap → Prop}
    {accepts : τ → UtxoUndo → τ → Prop} (law : ∀ state undo next coins, accepts state undo next → shows state coins →
      ∃ applied, shows next applied ∧ store.Reverts shows coins undo applied) {first last : τ} {undos : List UtxoUndo}
    (applied : Applied accepts first undos last) {coins : CoinMap} (shown : shows first coins) :
    ∃ reached, shows last reached ∧ store.RevertsAll shows coins undos reached := by
  induction applied with
  | nil => exact ⟨coins, shown, UtxoStore.revertsAll_nil⟩
  | concat _ accepted ih =>
    obtain ⟨_, shownMiddle, earlier⟩ := ih
    obtain ⟨reached, shownLast, reverts⟩ := law _ _ _ _ accepted shownMiddle
    exact ⟨reached, shownLast, earlier.concat reverts⟩

namespace OverlayState

variable {base : CoinMap} {state next : OverlayState} {spent : List OutPointKey}
  {created : List CoinEntry} {undo : UtxoUndo}

/-- What `apply_with_undo` has checked, the record it returns and the map it leaves. -/
structure Accepted (before : CoinMap) (spent : List OutPointKey) (created : List CoinEntry) (undo : UtxoUndo)
    (after : CoinMap) : Prop extends Edit.Applicable before spent created where
  undo_eq : undo = ⟨entriesOf before spent, created.map fst⟩
  after_eq : after = Edit.applyAll before (Edit.ofLists spent created)

theorem applyWithUndo_accepted (applies : state.applyWithUndo base spent created = .ok (undo, next)) :
    Accepted (state.visible base) spent created undo (next.visible base) := by
  simp only [applyWithUndo, bind_eq_ok, foldOutcome_spendLoaded, foldOutcome_createLoaded] at applies
  obtain ⟨_, ⟨⟨spentNodup, present⟩, rfl⟩, _, ⟨⟨createdNodup, fresh⟩, rfl⟩, rfl, rfl⟩ := applies
  simp only [visible_loadAll, List.mem_toFinset] at fresh
  exact ⟨⟨spentNodup, present, createdNodup, fresh⟩, rfl, by rw [visible_writeAll, visible_loadAll, visible_loadAll]⟩

namespace Accepted

variable {before after : CoinMap} (accepted : Accepted before spent created undo after)
include accepted

/-- The spent keys are absent afterwards, except those created again. -/
theorem absent_iff : (∀ key ∈ undo.spent.map fst, after key = none) ↔ ∀ key ∈ spent, key ∉ created.map fst := by
  rw [accepted.undo_eq, accepted.map_fst_entries, accepted.after_eq]
  exact forall₂_congr fun _ isSpent => accepted.toApplicable.absent_iff isSpent

theorem restores (shown : state.visible base = after) (undone : state.undo base undo = .ok next) :
    next.visible base = before := by
  obtain ⟨-, rfl⟩ := undo_eq_ok.mp undone
  rw [visible_undone, visible_loadAll, shown, accepted.after_eq, accepted.undo_eq, accepted.reverted]

end Accepted

def AcceptsApart (base : CoinMap) (state : OverlayState) (undo : UtxoUndo) (next : OverlayState) :
    Prop :=
  ∃ spent created, state.applyWithUndo base spent created = .ok (undo, next) ∧ ∀ key ∈ spent, key ∉ created.map fst

/-- An overlay takes back a mutation exactly if it creates none of the outpoints it spends, and mutations of
that kind last first; the redb store takes back whatever it applied. -/
theorem overlay_undo_inverts (base : CoinMap) :
    (∀ (state : OverlayState) spent created undo next, state.applyWithUndo base spent created = .ok (undo, next) →
      ((∃ restored, next.undo base undo = .ok restored ∧ restored.visible base = state.visible base) ↔
        ∀ key ∈ spent, key ∉ created.map fst)) ∧ (∀ first undos last, Applied (AcceptsApart base) first undos last →
      ∃ restored, undoAll (utxoStore base) undos.reverse last = (restored, .ok ()) ∧
        restored.visible base = first.visible base) ∧ ∀ now hotWindowSecs (first : Tiers) undos last,
      (∀ key, first.hot.lookup key = none ∨ first.cold.lookup key = none) →
      Applied (fun tiers undo next => ∃ spent created, tiers.applyWithUndo spent created = .ok (next, undo))
        first undos last →
      ∃ restored, undoAll (redbUtxoStore now hotWindowSecs) undos.reverse last = (restored, .ok ()) ∧
        (∀ key, restored.get key = first.get key) ∧
        ∀ key, restored.hot.lookup key = none ∨ restored.cold.lookup key = none := by
  refine ⟨fun state spent created undo next applies => ?_, fun first undos last applied => ?_,
    fun now hotWindowSecs first undos last apart applied => ?_⟩
  · have accepted := applyWithUndo_accepted applies
    rw [← accepted.absent_iff]
    constructor
    · rintro ⟨restored, undone, -⟩
      exact (undo_eq_ok.mp undone).1
    · intro absent
      have undone := undo_eq_ok.mpr ⟨absent, rfl⟩
      exact ⟨_, undone, accepted.restores rfl undone⟩
  · have law : ∀ (state : OverlayState) undo next coins, AcceptsApart base state undo next →
        state.visible base = coins → ∃ applied, next.visible base = applied ∧
          (utxoStore base).Reverts (fun state coins => state.visible base = coins) coins undo applied := by
      rintro state undo next _ ⟨spent, created, applies, apart⟩ rfl
      have accepted := applyWithUndo_accepted applies
      refine ⟨_, rfl, fun later shown => ?_⟩
      have undone := undo_eq_ok.mpr ⟨shown ▸ accepted.absent_iff.mpr apart, rfl⟩
      exact ⟨_, undone, accepted.restores shown undone⟩
    obtain ⟨_, shownLast, reverts⟩ := applied.reverts law rfl
    exact reverts last shownLast
  · obtain ⟨coins, represents⟩ := Tiers.exists_represented apart
    have law : ∀ (tiers : Tiers) undo next coins,
        (∃ spent created, tiers.applyWithUndo spent created = .ok (next, undo)) → tiers.Shows coins →
        ∃ applied, next.Shows applied ∧ (redbUtxoStore now hotWindowSecs).Reverts Tiers.Shows coins undo applied := by
      rintro tiers undo next coins ⟨_, _, applies⟩ shown
      exact redb_reverts shown applies now hotWindowSecs
    obtain ⟨_, shownLast, reverts⟩ := applied.reverts law ⟨coins, represents, rfl⟩
    obtain ⟨restored, undone, _, holds, same⟩ := reverts last shownLast
    refine ⟨restored, undone, fun key => ?_, holds.apart⟩
    rw [holds.shows, represents.shows, same]

theorem overlay_undo_inverts_spend : ∃ undo next restored,
    empty.applyWithUndo lonelyTiers.get [⟨⟨1⟩, 0⟩] [(⟨⟨2⟩, 0⟩, lonelyCoin)] = .ok (undo, next) ∧
      next.undo lonelyTiers.get undo = .ok restored ∧
      restored.visible lonelyTiers.get ⟨⟨1⟩, 0⟩ = some lonelyCoin ∧
      restored.visible lonelyTiers.get ⟨⟨2⟩, 0⟩ = none := by
  have applies : ∃ undo next, empty.applyWithUndo lonelyTiers.get [⟨⟨1⟩, 0⟩] [(⟨⟨2⟩, 0⟩, lonelyCoin)] =
      .ok (undo, next) := ⟨_, _, rfl⟩
  obtain ⟨undo, next, applies⟩ := applies
  obtain ⟨restored, undone, same⟩ := ((overlay_undo_inverts lonelyTiers.get).1 _ _ _ _ _ applies).mpr (by decide)
  exact ⟨undo, next, restored, applies, undone, congrFun same _, congrFun same _⟩

/-- A mutation that spends an outpoint and creates it again is accepted, and its record refused. -/
theorem overlay_undo_refuses_recreated : ∃ undo next,
    empty.applyWithUndo lonelyTiers.get [⟨⟨1⟩, 0⟩] [(⟨⟨1⟩, 0⟩, { lonelyCoin with valueSats := 11 })] =
      .ok (undo, next) ∧ next.undo lonelyTiers.get undo = .error (.duplicate ⟨⟨1⟩, 0⟩) :=
  ⟨_, _, rfl, rfl⟩

end OverlayState

end Rbtc.Execution
