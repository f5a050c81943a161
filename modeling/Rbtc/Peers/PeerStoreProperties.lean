import Rbtc.Peers.PeerStore

/-! What the calls do to the tried records: their slots stay distinct, and under the conditions
below a record is displaced only by a failed probe, by name, or once it is terrible. -/

namespace Rbtc.Peers

open Foundation PeerStore Table List Option Finset
open Bool hiding not_or

variable {α γ : Type} [LinearOrder α] {policy : PeerPolicy α γ}

variable {records before after : Records α γ} {address : α} {record : StoredPeer γ} {store next : PeerStore α γ}

theorem lookup_retain {keep : α → StoredPeer γ → Bool} : (retain records keep).lookup address = some record ↔
      records.lookup address = some record ∧ keep address record = true := by
  have nodup : (((sortedEntries records).filter fun entry => keep entry.1 entry.2).map Prod.fst).Nodup := by
    refine Nodup.sublist (filter_sublist.map Prod.fst) ?_
    rw [map_fst_sortedEntries]
    exact nodup_sortedKeys _
  constructor
  · intro found
    obtain ⟨member, kept⟩ := mem_filter.mp (mem_of_lookup_ofList found)
    exact ⟨mem_sortedEntries.mp member, kept⟩
  rintro ⟨found, kept⟩
  have member : (address, record) ∈ (sortedEntries records).filter fun entry => keep entry.1 entry.2 :=
    mem_filter.mpr ⟨mem_sortedEntries.mpr found, kept⟩
  exact lookup_ofList_of_mem nodup member

theorem keys_retain_subset (keep : α → StoredPeer γ → Bool) : (retain records keep).keys ⊆ records.keys := by
  intro address member
  rw [mem_keys_iff, ne_none_iff_exists'] at member ⊢
  obtain ⟨record, found⟩ := member
  exact ⟨record, (lookup_retain.mp found).1⟩

theorem keys_insert_subset (address : α) (record : StoredPeer γ) :
    (records.insert address record).keys ⊆ insert address records.keys := by
  intro other member
  rw [mem_keys_iff, lookup_insert] at member
  split at member
  · next same => exact mem_insert.mpr (.inl same)
  · exact mem_insert_of_mem (mem_keys_iff.mpr member)

theorem keys_insert_of_lookup (known : records.lookup address = some record)
    (updated : StoredPeer γ) : (records.insert address updated).keys ⊆ records.keys := by
  refine (keys_insert_subset address updated).trans (insert_subset ?_ (Subset.refl _))
  rw [mem_keys_iff, known]
  exact some_ne_none record

theorem keys_erase_subset (address : α) : (records.erase address).keys ⊆ records.keys := by
  rw [Table.erase, Finmap.keys_erase]
  exact Finset.erase_subset _ _

theorem triedAt_iff_any : TriedAt records address ↔ (records.lookup address).any recordIsTried = true := by
  rw [TriedAt]
  cases records.lookup address with
  | none => simp
  | some _ => simp

theorem SlotsDistinct.mono (distinct : SlotsDistinct policy before)
    (tried : ∀ address, TriedAt after address → TriedAt before address) : SlotsDistinct policy after :=
  fun _ _ left right same => distinct _ _ (tried _ left) (tried _ right) same

theorem triedAt_insert {other : α} (apart : other ≠ address) :
    TriedAt (records.insert address record) other ↔ TriedAt records other := by
  rw [TriedAt, TriedAt, lookup_insert, if_neg apart]

theorem triedAt_insert_self : TriedAt (records.insert address record) address ↔ recordIsTried record = true := by
  rw [TriedAt, lookup_insert_self]
  constructor
  · rintro ⟨_, ⟨⟩, tried⟩
    exact tried
  · exact fun tried => ⟨record, rfl, tried⟩

theorem triedAt_erase {other : α} :
    TriedAt (records.erase address) other ↔ other ≠ address ∧ TriedAt records other := by
  by_cases same : other = address
  · simp [TriedAt, same]
  · simp [TriedAt, lookup_erase, same]

theorem SlotsDistinct.insert (distinct : SlotsDistinct policy records) (record : StoredPeer γ)
    (vacant : recordIsTried record = true → ∀ other, TriedAt records other →
      triedPosition policy other = triedPosition policy address → other = address) :
    SlotsDistinct policy (records.insert address record) := by
  intro left right triedLeft triedRight same
  by_cases isLeft : left = address
  · by_cases isRight : right = address
    · rw [isLeft, isRight]
    rw [isLeft, triedAt_insert_self] at triedLeft
    rw [triedAt_insert isRight] at triedRight
    rw [isLeft] at same ⊢
    exact (vacant triedLeft right triedRight same.symm).symm
  rw [triedAt_insert isLeft] at triedLeft
  by_cases isRight : right = address
  · rw [isRight, triedAt_insert_self] at triedRight
    rw [isRight] at same ⊢
    exact vacant triedRight left triedLeft same
  · rw [triedAt_insert isRight] at triedRight
    exact distinct left right triedLeft triedRight same

def Served (records : Records α γ) : Prop :=
  ∀ address record, records.lookup address = some record → hasRequired record.services = true

/-- The invariant of the pool. -/
structure Sound (policy : PeerPolicy α γ) (records : Records α γ) : Prop where
  slots : SlotsDistinct policy records
  bounded : records.keys.card ≤ maxStoredPeers
  served : Served records

section
variable (served : Served records)
include served

theorem Served.insert {address : α} {record : StoredPeer γ}
    (offers : hasRequired record.services = true) : Served (records.insert address record) := by
  intro other found isFound
  rw [lookup_insert] at isFound
  split at isFound
  · cases isFound
    exact offers
  · exact served other found isFound

theorem Served.erase (address : α) : Served (records.erase address) := by
  intro other found isFound
  exact served other found (lookup_of_erase isFound)

theorem Served.retain (keep : α → StoredPeer γ → Bool) : Served (Peers.retain records keep) :=
  fun address record found => served address record (lookup_retain.mp found).1

theorem Served.sound : Sound policy (ofList (retainBucketed policy records)) where
  slots := slotsDistinct_retainBucketed policy records
  bounded := card_retainBucketed_le policy records
  served address record found := served address record (lookup_of_retained found)

end

/-- The pool stays sound, and tried records that are not exempt stay tried if the condition holds for them. -/
structure CallEffect (policy : PeerPolicy α γ) (exempt : α → StoredPeer γ → Prop) (condition : StoredPeer γ → Prop)
    (before after : Records α γ) : Prop where
  sound : Sound policy before → Sound policy after
  keeps : Sound policy before → ∀ address record, before.lookup address = some record →
    recordIsTried record = true → condition record → exempt address record ∨ TriedAt after address

theorem CallEffect.unchanged {exempt : α → StoredPeer γ → Prop} {condition : StoredPeer γ → Prop}
    (records : Records α γ) : CallEffect policy exempt condition records records where
  sound := id
  keeps _ _ record found tried _ := .inr ⟨record, found, tried⟩

section
variable {exempt : α → StoredPeer γ → Prop} {condition : Prop}

theorem CallEffect.retained (served : Served before → Served after)
    (rewrites : Sound policy before → condition → SlotsDistinct policy after ∧
      after.keys.card ≤ maxStoredPeers ∧ ∀ address record, before.lookup address = some record →
        recordIsTried record = true → exempt address record ∨ TriedAt after address) :
    CallEffect policy exempt (fun _ => condition) before (ofList (retainBucketed policy after)) where
  sound sound := (served sound.served).sound
  keeps sound address record found tried holds := by
    obtain ⟨slots, room, keeps⟩ := rewrites sound holds
    refine (keeps address record found tried).imp_right ?_
    rintro ⟨kept, isKept, isTried⟩
    refine ⟨kept, lookup_retainBucketed slots isKept isTried ?_, isTried⟩
    exact countP_le_length.trans ((length_byPriority after).trans_le room)

/-- A record is rewritten: it becomes tried only in a slot no other one has. -/
theorem CallEffect.rewritten {address : α} {record updated : StoredPeer γ}
    (known : before.lookup address = some record) (services : updated.services = record.services)
    (promotes : condition → recordIsTried record = false → recordIsTried updated = true → ∀ other,
      TriedAt before other → triedPosition policy other = triedPosition policy address → other = address)
    (keeps : condition → recordIsTried record = true → exempt address record ∨ recordIsTried updated = true) :
    CallEffect policy exempt (fun _ => condition) before
      (ofList (retainBucketed policy (before.insert address updated))) := by
  refine .retained (fun served => ?_) fun sound holds => ⟨?_, ?_, ?_⟩
  · refine served.insert ?_
    rw [services]
    exact served address record known
  · refine sound.slots.insert _ fun tried other otherTried same => ?_
    cases wasTried : recordIsTried record with
    | true => exact sound.slots other address otherTried ⟨record, known, wasTried⟩ same
    | false => exact promotes holds wasTried tried other otherTried same
  · exact le_trans (card_le_card (keys_insert_of_lookup known _)) sound.bounded
  · intro other found isFound tried
    by_cases isAddress : other = address
    · subst isAddress
      rw [known] at isFound
      cases isFound
      exact (keeps holds tried).imp_right triedAt_insert_self.mpr
    · exact .inr ((triedAt_insert isAddress).mpr ⟨found, isFound, tried⟩)

end

theorem loadRecords_eq [DecidableEq γ] {records : Records α γ} (loaded : store.loadRecords = .ok records) :
    records = store.records := by
  simp only [loadRecords, bind_eq_ok, pure_eq_ok] at loaded
  obtain ⟨_, _, rfl⟩ := loaded
  rfl

theorem replaceAll_records {ordered : List (α × StoredPeer γ)}
    (replaced : store.replaceAll policy ordered = .ok next) : next.records = ofList ordered := by
  simp only [replaceAll, bind_eq_ok, pure_eq_ok] at replaced
  obtain ⟨_, _, rfl⟩ := replaced
  rfl

/-- What an insert drops. -/
def Ineligible (policy : PeerPolicy α γ) (now : Nat) (address : α) (record : StoredPeer γ) : Prop :=
  isTerrible record now = true ∨ policy.acceptable address = false

theorem lookup_eligible (served : Served records) (now : Nat) (found : records.lookup address = some record) :
    Ineligible policy now address record ∨ (eligible policy records now).lookup address = some record := by
  by_cases exempt : Ineligible policy now address record
  · exact .inl exempt
  rw [Ineligible, not_or, Bool.not_eq_true, Bool.not_eq_false] at exempt
  refine .inr (lookup_retain.mpr ⟨found, ?_⟩)
  rw [served address record found, exempt.1, exempt.2]
  rfl

theorem triedAt_of_retain {keep : α → StoredPeer γ → Bool} (tried : TriedAt (retain records keep) address) :
    TriedAt records address := by
  obtain ⟨record, found, isTried⟩ := tried
  exact ⟨record, (lookup_retain.mp found).1, isTried⟩

/-- The rank of a record without its last sighting; an absent one has that of a peer never tried. -/
def standing : Option (StoredPeer γ) → List ℤ
  | none => [0, 1, 0, 0, 1, 0, 0, 0]
  | some record => (peerPriority record).take 8

theorem priority_lt_of_unproven {other : StoredPeer γ} (tried : recordIsTried record = true)
    (unfailed : record.consecutiveFailures = 0) (unproven : standing (some other) = @standing γ none) :
    peerPriority record < peerPriority other := by
  simp only [standing, peerPriority, take_succ_cons, cons.injEq] at unproven
  simp only [recordIsTried, and_eq_true, bne_iff_ne] at tried
  simp only [peerPriority, cons_lt_cons_iff]
  grind

/-- What learning addresses does: nothing becomes tried or stops to be, and no standing changes. -/
structure Learned (before after : Records α γ) : Prop where
  served : Served before → Served after
  tried : ∀ address, TriedAt after address ↔ TriedAt before address
  ranks : ∀ address, standing (after.lookup address) = standing (before.lookup address)

theorem Learned.refl (records : Records α γ) : Learned records records :=
  ⟨id, fun _ => Iff.rfl, fun _ => rfl⟩

theorem Learned.insert (offers : Served records → hasRequired record.services = true)
    (same : recordIsTried record = true ↔ TriedAt records address)
    (rank : standing (some record) = standing (records.lookup address)) :
    Learned records (records.insert address record) where
  served served := served.insert (offers served)
  tried other := by
    by_cases isAddress : other = address
    · rw [isAddress, triedAt_insert_self, same]
    · exact triedAt_insert isAddress
  ranks other := by
    rw [lookup_insert]
    split
    · next isAddress => rw [isAddress, rank]
    · rfl

/-- Learned addresses do not outrank a tried record that has not failed. -/
theorem Learned.outranks_le (learned : Learned before after) (tried : recordIsTried record = true)
    (unfailed : record.consecutiveFailures = 0) :
    (byPriority after).countP (fun other => Outranks other (address, record)) ≤ before.keys.card := by
  have nodup := (nodup_byPriority after).sublist
    ((filter_sublist (p := fun other => Outranks other (address, record))).map Prod.fst)
  rw [countP_eq_length_filter, ← List.length_map Prod.fst, ← toFinset_card_of_nodup nodup]
  refine card_le_card fun other member => ?_
  rw [List.mem_toFinset, List.mem_map] at member
  obtain ⟨entry, isEntry, rfl⟩ := member
  rw [mem_filter, decide_eq_true_eq, mem_byPriority] at isEntry
  rw [mem_keys_iff]
  intro absent
  have unproven := learned.ranks entry.1
  rw [isEntry.1, absent] at unproven
  have below := priority_lt_of_unproven tried unfailed unproven
  rcases isEntry.2 with above | ⟨same, -⟩
  · exact lt_asymm above below
  · exact below.ne' same

section
variable [DecidableEq γ]

theorem learnedRecord_eq_some {group : γ} {roll services lastSeen : Nat} {full : Bool}
    {existing : Option (StoredPeer γ)}
    (learned : learnedRecord group roll services lastSeen full existing = some record) :
    (record.services = services ∨ ∃ old, existing = some old ∧ record.services = old.services) ∧
      recordIsTried record = existing.any recordIsTried ∧ standing (some record) = standing existing := by
  cases existing with
  | none =>
    rw [learnedRecord] at learned
    split at learned
    · cases learned
    · cases learned
      exact ⟨.inl rfl, rfl, rfl⟩
  | some old =>
    dsimp only [learnedRecord] at learned
    split at learned
    · split at learned
      · cases learned
      · cases learned
        exact ⟨.inr ⟨old, rfl, rfl⟩, rfl, rfl⟩
    · cases learned
      exact ⟨.inl rfl, rfl, rfl⟩

theorem learn_learned (policy : PeerPolicy α γ) (group : γ) (now : Nat) (state : PeerStore.Discovery α γ)
    (incoming : PeerAddress α × Nat) : Learned state.records (learn policy group now state incoming).records := by
  rw [learn]
  split
  · exact .refl _
  rename_i record accepted
  split at accepted
  · cases accepted
  rename_i checked
  rw [not_or, Bool.not_eq_false] at checked
  split at accepted
  · cases accepted
  obtain ⟨services, tried, rank⟩ := learnedRecord_eq_some accepted
  refine Learned.insert (fun served => ?_) ?_ rank
  · rcases services with isOwn | ⟨old, known, isOld⟩
    · rw [isOwn]
      exact checked.1
    · rw [isOld]
      exact served _ old known
  · rw [tried, triedAt_iff_any]

theorem foldl_learn (policy : PeerPolicy α γ) (group : γ) (now : Nat) (incoming : List (PeerAddress α × Nat))
    (state : PeerStore.Discovery α γ) :
    Learned state.records (incoming.foldl (learn policy group now) state).records := by
  induction incoming generalizing state with
  | nil => exact .refl _
  | cons entry _ ih =>
    have first := learn_learned policy group now state entry
    have later := ih (learn policy group now state entry)
    exact ⟨later.served ∘ first.served, fun address => (later.tried address).trans (first.tried address),
      fun address => (later.ranks address).trans (first.ranks address)⟩

/-- A record that discovery leaves its place: it has not failed, or what is then known fits the limit. -/
def Spared (policy : PeerPolicy α γ) (records : Records α γ) (group : γ) (addresses : List (PeerAddress α × Nat))
    (now : Nat) (record : StoredPeer γ) : Prop :=
  record.consecutiveFailures = 0 ∨ (discover policy records group addresses now).records.keys.card ≤ maxStoredPeers

theorem insertDiscoveredInGroup_effect {store next : PeerStore α γ} {group : γ}
    {addresses : List (PeerAddress α × Nat)} {now : Nat} {stats : Nat × Nat}
    (performed : store.insertDiscoveredInGroup policy group addresses now = .ok (next, stats)) :
    CallEffect policy (Ineligible policy now) (Spared policy store.records group addresses now) store.records
      next.records := by
  simp only [insertDiscoveredInGroup, bind_eq_ok] at performed
  obtain ⟨_, loaded, _, replaced, rfl, -⟩ := performed
  rw [loadRecords_eq loaded] at replaced
  rw [replaceAll_records replaced]
  have learned : Learned (eligible policy store.records now)
      (discover policy store.records group addresses now).records := by
    rw [discover]
    exact foldl_learn policy group now _ ⟨_, _, 0, 0⟩
  refine ⟨fun sound => (learned.served (sound.served.retain _)).sound, fun sound address record found tried meets => ?_⟩
  refine (lookup_eligible sound.served now found).imp_right fun kept => ?_
  obtain ⟨after, isAfter, isTried⟩ := (learned.tried address).mpr ⟨record, kept, tried⟩
  have slots := sound.slots.mono fun other isTried => triedAt_of_retain ((learned.tried other).mp isTried)
  refine ⟨after, lookup_retainBucketed slots isAfter isTried ?_, isTried⟩
  rcases meets with unfailed | room
  · have same := learned.ranks address
    rw [isAfter, kept] at same
    refine (learned.outranks_le isTried ?_).trans (le_trans (card_le_card (keys_retain_subset _)) sound.bounded)
    simpa [standing, peerPriority, unfailed] using congrArg List.head? same
  · exact countP_le_length.trans ((length_byPriority _).trans_le room)

end

section
variable {now : Nat}

theorem vacant_of_slotIncumbent (vacant : slotIncumbent policy records address = none) :
    ∀ other, TriedAt records other → triedPosition policy other ≠ triedPosition policy address := by
  rintro other ⟨record, found, tried⟩ same
  rw [slotIncumbent, map_eq_none_iff, List.find?_eq_none] at vacant
  refine vacant (other, record) (mem_byPriority.mpr found) ?_
  rw [tried, same]
  simp

theorem placeVerified_fst {alreadyTried : Bool} {record placed : StoredPeer γ}
    {collisions : List (StoredTriedCollision α)}
    (isPlaced : (placeVerified policy records address now alreadyTried record collisions).1 = placed) :
    placed.services = record.services ∧ placed.lastSuccess = record.lastSuccess ∧
      (alreadyTried = true → placed.inNewTable = false) ∧
      (placed.inNewTable = false → alreadyTried = true ∨ slotIncumbent policy records address = none) := by
  subst isPlaced
  rw [placeVerified]
  split
  · next tried => exact ⟨rfl, rfl, fun _ => rfl, fun _ => .inl tried⟩
  rename_i untried
  split
  · exact ⟨rfl, rfl, fun tried => absurd tried untried, nofun⟩
  · next vacant => exact ⟨rfl, rfl, fun _ => rfl, fun _ => .inr vacant⟩

variable [DecidableEq γ]

theorem insertVerified_effect {store next : PeerStore α γ} {services : Nat} {flag : Bool}
    (performed : store.insertVerified policy address services now = .ok (next, flag)) :
    CallEffect policy (Ineligible policy now)
      (fun _ => now ≠ 0 ∧ (insert address (eligible policy store.records now).keys).card ≤ maxStoredPeers)
      store.records next.records := by
  rw [insertVerified] at performed
  split at performed
  · cases performed
    exact .unchanged _
  rename_i checked
  rw [not_or, Bool.not_eq_false] at checked
  simp only [bind_eq_ok] at performed
  obtain ⟨_, loaded, queued, _, rfl, -⟩ := performed
  rw [loadRecords_eq loaded]
  generalize isRecord : StoredPeer.mk services _ _ _ now 0 _ _ _ _ _ _ = record
  generalize queued.filter _ = collisions
  generalize isPlaced : (placeVerified policy _ address now _ record collisions).1 = placed
  obtain ⟨sameServices, sameSuccess, stays, takes⟩ := placeVerified_fst isPlaced
  have offers : hasRequired placed.services = true := by
    rw [sameServices, ← isRecord]
    exact checked.1
  have success : placed.lastSuccess = now := by
    rw [sameSuccess, ← isRecord]
  refine .retained (fun served => ?_) fun sound holds => ⟨?_, ?_, ?_⟩
  · exact ((served.retain _).erase address).insert offers
  · have wasTried : ∀ other, TriedAt ((eligible policy store.records now).erase address) other →
        TriedAt store.records other := fun other tried => triedAt_of_retain (triedAt_erase.mp tried).2
    refine (sound.slots.mono wasTried).insert placed fun tried other otherTried same => ?_
    rw [recordIsTried, and_eq_true, not_eq_true'] at tried
    rcases takes tried.2 with already | vacant
    · have self := triedAt_of_retain (triedAt_iff_any.mpr already)
      exact sound.slots other address (wasTried other otherTried) self same
    · exact absurd same (vacant_of_slotIncumbent vacant other otherTried)
  · refine le_trans (card_le_card ?_) holds.2
    exact (keys_insert_subset address placed).trans (insert_subset_insert _ (keys_erase_subset address))
  · intro other found isFound tried
    refine (lookup_eligible sound.served now isFound).imp_right fun kept => ?_
    by_cases isAddress : other = address
    · subst isAddress
      have already := triedAt_iff_any.mp ⟨found, kept, tried⟩
      rw [triedAt_insert_self, recordIsTried, success, stays already]
      simpa using holds.1
    · rw [triedAt_insert isAddress, triedAt_erase]
      exact ⟨isAddress, found, kept, tried⟩

end

section
variable [DecidableEq γ] {flag : Bool} {update : StoredPeer γ → StoredPeer γ}

/-- An update of one record: under the condition it leaves a tried record tried, and makes a record tried
only in a slot no other one has. -/
def Unopposed (policy : PeerPolicy α γ) (records : Records α γ) (address : α) : Prop :=
  ∀ record, records.lookup address = some record → record.inNewTable = false →
    ∀ other, TriedAt records other → triedPosition policy other = triedPosition policy address → other = address

variable (performed : store.updateExisting policy address update = .ok (next, flag))
  (services : ∀ record, (update record).services = record.services)
include performed services

theorem updateExisting_effect {condition : Prop}
    (keeps : condition → ∀ record, recordIsTried record = true → recordIsTried (update record) = true)
    (promotes : condition → ∀ record, store.records.lookup address = some record → recordIsTried record = false →
      recordIsTried (update record) = true → ∀ other, TriedAt store.records other →
        triedPosition policy other = triedPosition policy address → other = address) :
    CallEffect policy (fun _ _ => False) (fun _ => condition) store.records next.records := by
  simp only [updateExisting, bind_eq_ok] at performed
  obtain ⟨_, loaded, performed⟩ := performed
  rw [loadRecords_eq loaded] at performed
  split at performed
  · cases performed
    exact .unchanged _
  rename_i record known
  simp only [bind_eq_ok] at performed
  obtain ⟨_, replaced, rfl, -⟩ := performed
  rw [replaceAll_records replaced]
  exact .rewritten known (services record) (fun holds => promotes holds record known)
    fun holds tried => .inr (keeps holds record tried)

theorem updateExisting_effect_of_untouched
    (untouched : ∀ record, recordIsTried (update record) = recordIsTried record) :
    CallEffect policy (fun _ _ => False) (fun _ => True) store.records next.records := by
  refine updateExisting_effect performed services (fun _ record tried => ?_) fun _ record _ untried tried => ?_
  · rw [untouched, tried]
  · rw [untouched, untried] at tried
    cases tried

theorem updateExisting_effect_of_success {now : Nat} (success : ∀ record, (update record).lastSuccess = now)
    (sameTable : ∀ record, (update record).inNewTable = record.inNewTable) :
    CallEffect policy (fun _ _ => False) (fun _ => now ≠ 0 ∧ Unopposed policy store.records address) store.records
      next.records := by
  refine updateExisting_effect performed services (fun holds record tried => ?_) fun holds record known _ tried => ?_
  · rw [recordIsTried, and_eq_true] at tried
    rw [recordIsTried, success, sameTable, tried.2]
    simpa using holds.1
  · rw [recordIsTried, and_eq_true, not_eq_true', sameTable] at tried
    exact holds.2 record known tried.2

end

section
variable [DecidableEq γ]

theorem pruneTerrible_effect {now removed : Nat} (performed : store.pruneTerrible policy now = .ok (next, removed)) :
    CallEffect policy (fun _ record => isTerrible record now = true) (fun _ => True) store.records next.records := by
  simp only [pruneTerrible, bind_eq_ok] at performed
  obtain ⟨_, loaded, performed⟩ := performed
  rw [loadRecords_eq loaded] at performed
  split at performed
  · simp only [bind_eq_ok] at performed
    obtain ⟨_, replaced, rfl, -⟩ := performed
    rw [replaceAll_records replaced]
    refine .retained (fun served => served.retain _) fun sound _ => ⟨?_, ?_, ?_⟩
    · exact sound.slots.mono fun _ => triedAt_of_retain
    · exact le_trans (card_le_card (keys_retain_subset _)) sound.bounded
    · intro address record found tried
      by_cases terrible : isTerrible record now = true
      · exact .inl terrible
      · exact .inr ⟨record, lookup_retain.mpr ⟨found, by simpa using terrible⟩, tried⟩
  · cases performed
    exact .unchanged _

theorem forgetPeer_effect {address : α} {flag : Bool} (performed : store.forgetPeer policy address = .ok (next, flag)) :
    CallEffect policy (fun other _ => other = address) (fun _ => True) store.records next.records := by
  simp only [forgetPeer, bind_eq_ok] at performed
  obtain ⟨_, loaded, performed⟩ := performed
  rw [loadRecords_eq loaded] at performed
  split at performed
  · cases performed
    exact .unchanged _
  simp only [bind_eq_ok] at performed
  obtain ⟨_, replaced, rfl, -⟩ := performed
  rw [replaceAll_records replaced, ofList_sortedEntries]
  constructor
  · intro sound
    refine ⟨sound.slots.mono fun other tried => (triedAt_erase.mp tried).2, ?_, sound.served.erase address⟩
    exact le_trans (card_le_card (keys_erase_subset address)) sound.bounded
  intro _ other record found tried _
  by_cases isAddress : other = address
  · exact .inl isAddress
  · exact .inr (triedAt_erase.mpr ⟨isAddress, record, found, tried⟩)

end

section
variable {collision : StoredTriedCollision α}

/-- A queued collision that may be probed: a stored challenger and a tried incumbent of one slot. -/
structure Contested (policy : PeerPolicy α γ) (records : Records α γ) (incumbent challenger : α) : Prop where
  incumbentTried : TriedAt records incumbent
  challengerStored : ∃ record, records.lookup challenger = some record ∧ recordIsTried record = false
  sameSlot : triedPosition policy challenger = triedPosition policy incumbent

theorem contested_of_sanitized {collisions : List (StoredTriedCollision α)}
    (member : collision ∈ sanitizeTriedCollisions policy collisions records) :
    Contested policy records collision.incumbent collision.challenger := by
  have checked := (mem_filter.mp member).2
  split at checked
  · next challenger incumbent isChallenger isIncumbent =>
    rw [and_eq_true, and_eq_true, not_eq_true', beq_iff_eq] at checked
    exact ⟨⟨incumbent, isIncumbent, checked.1.2⟩, ⟨challenger, isChallenger, checked.1.1⟩, checked.2⟩
  · cases checked

variable {incumbent : α}

theorem Contested.apart {challenger : α} (contested : Contested policy records incumbent challenger) :
    challenger ≠ incumbent := by
  rintro rfl
  obtain ⟨_, found, tried⟩ := contested.incumbentTried
  obtain ⟨_, isOther, untried⟩ := contested.challengerStored
  rw [found] at isOther
  cases isOther
  rw [tried] at untried
  cases untried

variable {demoted : StoredPeer γ} {challengers : List α}

theorem updateStored_of_lookup {address : α} (known : records.lookup address = some record)
    (update : StoredPeer γ → StoredPeer γ) :
    updateStored records address update = records.insert address (update record) := by
  rw [updateStored, known]

theorem probed_eq (known : records.lookup incumbent = some record)
    (contested : ∀ challenger ∈ challengers, Contested policy records incumbent challenger) (now : Nat) :
    probed records incumbent challengers true now = records.insert incumbent { record with
        lastSuccess := now, consecutiveFailures := 0, inNewTable := false, newSourceGroups := [] } ∧
    (probed records incumbent challengers false now =
        records.insert incumbent { record with inNewTable := true } ∨
      ∃ winner ∈ challengers, ∃ won, records.lookup winner = some won ∧ probed records incumbent challengers false now =
          (records.insert incumbent { record with inNewTable := true }).insert winner { won with
            inNewTable := false, newSourceGroups := [] }) := by
  constructor
  · rw [probed, if_pos rfl, updateStored_of_lookup known]
  rw [probed, if_neg Bool.false_ne_true, updateStored_of_lookup known]
  split
  · next winner best =>
    have challenges : winner.1 ∈ challengers := by
      simpa using List.find?_some best
    obtain ⟨won, isWon, _⟩ := (contested winner.1 challenges).challengerStored
    refine .inr ⟨winner.1, challenges, won, isWon, updateStored_of_lookup ?_ _⟩
    rw [lookup_insert, if_neg (contested winner.1 challenges).apart, isWon]
  · exact .inl rfl

section
variable (slots : SlotsDistinct policy records) (untried : recordIsTried demoted = false)
include slots untried

theorem slotsDistinct_demoted : SlotsDistinct policy (records.insert incumbent demoted) := by
  refine slots.insert demoted fun tried => ?_
  rw [untried] at tried
  cases tried

theorem slotsDistinct_promoted {winner : α} (contested : Contested policy records incumbent winner)
    (promoted : StoredPeer γ) : SlotsDistinct policy ((records.insert incumbent demoted).insert winner promoted) := by
  refine (slotsDistinct_demoted slots untried).insert promoted fun _ other otherTried same => ?_
  have notIncumbent : other ≠ incumbent := by
    rintro rfl
    rw [triedAt_insert_self, untried] at otherTried
    cases otherTried
  rw [triedAt_insert notIncumbent] at otherTried
  exact absurd (slots other incumbent otherTried contested.incumbentTried (same.trans contested.sameSlot)) notIncumbent

end

theorem probed_effect (alive : Bool) (now : Nat) (tried : TriedAt records incumbent)
    (contested : ∀ challenger ∈ challengers, Contested policy records incumbent challenger) :
    CallEffect policy (fun address _ => alive = false ∧ address = incumbent) (fun _ => alive = true → now ≠ 0) records
      (ofList (retainBucketed policy (probed records incumbent challengers alive now))) := by
  obtain ⟨record, known, isTried⟩ := tried
  obtain ⟨live, dead⟩ := probed_eq known contested now
  cases alive with
  | true =>
    rw [live]
    refine .rewritten known rfl (fun _ untried => ?_) fun holds _ => .inr ?_
    · rw [isTried] at untried
      cases untried
    · rw [recordIsTried]
      simpa using holds rfl
  | false =>
    have demotes : recordIsTried { record with inNewTable := true } = false := and_false _
    rcases dead with noWinner | ⟨winner, isChallenger, won, isWon, promoted⟩
    · rw [noWinner]
      refine .rewritten known rfl (fun _ _ tried => ?_) fun _ _ => .inl ⟨rfl, rfl⟩
      rw [demotes] at tried
      cases tried
    have challenges := contested winner isChallenger
    have stillWon : (records.insert incumbent { record with inNewTable := true }).lookup winner = some won := by
      rw [lookup_insert, if_neg challenges.apart, isWon]
    rw [promoted]
    refine .retained (fun served => ?_) fun sound _ => ⟨?_, ?_, ?_⟩
    · refine Served.insert (served.insert ?_) ?_
      · exact served incumbent record known
      · exact served winner won isWon
    · exact slotsDistinct_promoted sound.slots demotes challenges _
    · refine le_trans (card_le_card ?_) sound.bounded
      exact (keys_insert_of_lookup stillWon _).trans (keys_insert_of_lookup known _)
    intro address found isFound wasTried
    by_cases isIncumbent : address = incumbent
    · exact .inl ⟨rfl, isIncumbent⟩
    refine .inr ?_
    have notWinner : address ≠ winner := by
      rintro rfl
      obtain ⟨_, isOther, untried⟩ := challenges.challengerStored
      rw [isFound] at isOther
      cases isOther
      rw [wasTried] at untried
      cases untried
    rw [triedAt_insert notWinner, triedAt_insert isIncumbent]
    exact ⟨found, isFound, wasTried⟩

variable [DecidableEq γ]

theorem resolveTriedCollisionProbe_effect {alive flag : Bool} {now : Nat}
    (performed : store.resolveTriedCollisionProbe policy incumbent alive now = .ok (next, flag)) :
    CallEffect policy (fun address _ => alive = false ∧ address = incumbent) (fun _ => alive = true → now ≠ 0)
      store.records next.records := by
  simp only [resolveTriedCollisionProbe, bind_eq_ok] at performed
  obtain ⟨records, loaded, queued, _, performed⟩ := performed
  rw [loadRecords_eq loaded, partition_eq_filter_filter] at performed
  split at performed
  · cases performed
    exact .unchanged _
  rename_i some
  obtain ⟨rfl, -⟩ := performed
  generalize isMatching : (sanitizeTriedCollisions policy queued store.records).filter _ = matching at some
  have contested : ∀ challenger ∈ matching.map StoredTriedCollision.challenger,
      Contested policy store.records incumbent challenger := by
    rintro _ member
    obtain ⟨_, isCollision, rfl⟩ := mem_map.mp member
    rw [← isMatching, mem_filter, beq_iff_eq] at isCollision
    exact isCollision.2 ▸ contested_of_sanitized isCollision.1
  obtain ⟨first, _, rfl⟩ := exists_cons_of_ne_nil some
  exact probed_effect alive now (contested first.challenger (by simp)).incumbentTried contested

end

theorem fst_map_eq_ok {β σ : Type} {outcome : Except PeerStoreError (σ × β)} {next : σ}
    (mapped : Prod.fst <$> outcome = .ok next) : ∃ value, outcome = .ok (next, value) := by
  cases outcome with
  | error _ => cases mapped
  | ok pair =>
    cases mapped
    exact ⟨pair.2, rfl⟩

section
variable [DecidableEq γ]

/-- What a call may do to a tried record without breaking the promise. -/
def Exempt (policy : PeerPolicy α γ) : PeerCall α → α → StoredPeer γ → Prop
  | .insertDiscovered _ _ now | .insertDiscoveredFromSeedName _ now | .insertManual _ now _
  | .insertVerified _ _ now => Ineligible policy now
  | .resolveTriedCollisionProbe incumbent alive _ => fun address _ => alive = false ∧ address = incumbent
  | .pruneTerrible now => fun _ record => isTerrible record now = true
  | .forgetPeer forgotten => fun address _ => address = forgotten
  | _ => fun _ _ => False

/-- What keeps a tried record: discovery spares it, and a success is stamped with a time, within the limit
and not promoted into a slot another tried record has. -/
def Meets (policy : PeerPolicy α γ) (records : Records α γ) : PeerCall α → StoredPeer γ → Prop
  | .insertDiscovered source addresses now => Spared policy records (policy.addressGroup source) addresses now
  | .insertDiscoveredFromSeedName addresses now => Spared policy records policy.seedNameSourceGroup addresses now
  | .insertManual address now roll =>
    Spared policy records (policy.addressGroup address) [(⟨address, requiredServices, now⟩, roll)] now
  | .insertVerified address _ now => fun _ =>
    now ≠ 0 ∧ (insert address (eligible policy records now).keys).card ≤ maxStoredPeers
  | .recordSuccess address now | .recordSessionSuccess address now => fun _ =>
    now ≠ 0 ∧ Unopposed policy records address
  | .resolveTriedCollisionProbe _ alive now => fun _ => alive = true → now ≠ 0
  | _ => fun _ => True

theorem insertManual_effect {address : α} {now roll : Nat} {flag : Bool}
    (performed : store.insertManual policy address now roll = .ok (next, flag)) :
    CallEffect policy (Exempt policy (.insertManual address now roll))
      (Meets policy store.records (.insertManual address now roll)) store.records next.records := by
  rw [insertManual] at performed
  split at performed
  · cases performed
    exact .unchanged _
  simp only [bind_eq_ok] at performed
  obtain ⟨_, inserted, rfl, -⟩ := performed
  exact insertDiscoveredInGroup_effect inserted

theorem perform_effect {call : PeerCall α} (performed : store.perform policy call = .ok next) :
    CallEffect policy (Exempt policy call) (Meets policy store.records call) store.records next.records := by
  cases call
  all_goals obtain ⟨_, done⟩ := fst_map_eq_ok performed
  case insertDiscovered => exact insertDiscoveredInGroup_effect done
  case insertDiscoveredFromSeedName => exact insertDiscoveredInGroup_effect done
  case insertManual => exact insertManual_effect done
  case insertVerified => exact insertVerified_effect done
  case recordAttempt => exact updateExisting_effect_of_untouched done (fun _ => rfl) fun _ => rfl
  case recordSuccess => exact updateExisting_effect_of_success done (fun _ => rfl) (fun _ => rfl) fun _ => rfl
  case recordSessionSuccess =>
    exact updateExisting_effect_of_success done (fun _ => rfl) (fun _ => rfl) fun _ => rfl
  case recordHandshakeLatency => exact updateExisting_effect_of_untouched done (fun _ => rfl) fun _ => rfl
  case recordBlockThroughput => exact updateExisting_effect_of_untouched done (fun _ => rfl) fun _ => rfl
  case resolveTriedCollisionProbe => exact resolveTriedCollisionProbe_effect done
  case pruneTerrible => exact pruneTerrible_effect done
  case forgetPeer => exact forgetPeer_effect done

/-- The stores that successful calls reach from the empty one. -/
inductive Reached (policy : PeerPolicy α γ) : PeerStore α γ → Prop where
  | empty : Reached policy .empty
  | performed {store next : PeerStore α γ} {call : PeerCall α} (reached : Reached policy store)
      (performs : store.perform policy call = .ok next) : Reached policy next

theorem Reached.sound (reached : Reached policy store) : Sound policy store.records := by
  induction reached with
  | empty =>
    refine ⟨?_, Nat.zero_le _, ?_⟩
    · rintro _ _ ⟨_, found, _⟩
      cases found
    · intro _ _ found
      cases found
  | performed _ performs ih => exact (perform_effect performs).sound ih

theorem Reached.foldlM {calls : List (PeerCall α)} (reached : Reached policy store)
    (performs : calls.foldlM (perform policy) store = .ok next) : Reached policy next := by
  induction calls generalizing store with
  | nil =>
    cases performs
    exact reached
  | cons _ _ ih =>
    rw [foldlM_cons, bind_eq_ok] at performs
    obtain ⟨_, first, remaining⟩ := performs
    exact ih (reached.performed first) remaining

/-- Tried slots stay distinct and the pool bounded; a call under the condition keeps every tried
record that is not exempt. -/
theorem tried_displaced_only_by_failed_probe (policy : PeerPolicy α γ) (store : PeerStore α γ)
    (reached : Reached policy store) : SlotsDistinct policy store.records ∧ store.records.keys.card ≤ maxStoredPeers ∧
      ∀ call next, store.perform policy call = .ok next →
        ∀ address record, store.records.lookup address = some record → recordIsTried record = true →
          Meets policy store.records call record → Exempt policy call address record ∨ TriedAt next.records address :=
  ⟨reached.sound.slots, reached.sound.bounded, fun _ _ performs => (perform_effect performs).keeps reached.sound⟩

end

/-! Two addresses of one slot: the first is verified, the second only learned. -/

namespace SharedSlot

def oneSlot : PeerPolicy Nat Nat where
  bucketHash _ _ := 0
  addressGroup address := address
  seedNameSourceGroup := 0
  acceptable _ := true

def verifying : PeerCall Nat := .insertVerified 1 requiredServices 200000000

def learning : PeerCall Nat := .insertDiscovered 3 [(⟨2, requiredServices, 200000000⟩, 0)] 200000000

def settled (store : PeerStore Nat Nat) (address now : Nat) : Bool :=
  (store.records.lookup address).any fun record => recordIsTried record && !isTerrible record now

theorem learned_evaluates : (do
      let store ← [verifying].foldlM (perform oneSlot) .empty
      let next ← store.perform oneSlot learning
      return next.records.keys == {1, 2} && settled store 1 200000000 &&
        decide ((discover oneSlot store.records 3 [(⟨2, requiredServices, 200000000⟩, 0)]
          200000000).records.keys.card ≤ maxStoredPeers)) = Except.ok true := by
  decide +kernel

theorem success_evaluates : (do
      let store ← [verifying, learning, .recordAttempt 1 200000001].foldlM (perform oneSlot) .empty
      let next ← store.perform oneSlot (.recordSuccess 2 200000002)
      return settled store 1 200000002 && (next.records.lookup 1).isNone) = Except.ok true := by
  decide +kernel

end SharedSlot

open SharedSlot in
theorem tried_displaced_only_by_failed_probe_learned :
    ∃ store next record, Reached oneSlot store ∧ store.perform oneSlot learning = .ok next ∧
      next.records.keys = {1, 2} ∧ store.records.lookup 1 = some record ∧ recordIsTried record = true ∧
      TriedAt next.records 1 := by
  have evaluated := learned_evaluates
  simp only [bind_eq_ok, pure_eq_ok, and_eq_true, beq_iff_eq, decide_eq_true_eq] at evaluated
  obtain ⟨store, verifies, next, learns, ⟨keys, isSettled⟩, room⟩ := evaluated
  obtain ⟨record, found, both⟩ := (any_eq_true _ _).mp isSettled
  rw [and_eq_true, not_eq_true'] at both
  have reached : Reached oneSlot store := Reached.empty.foldlM verifies
  refine ⟨store, next, record, reached, learns, keys, found, both.1, ?_⟩
  rcases (tried_displaced_only_by_failed_probe oneSlot store reached).2.2 learning next learns 1 record found
    both.1 (.inr room) with (terrible | refused) | kept
  · rw [both.2] at terrible
    cases terrible
  · cases refused
  · exact kept

open SharedSlot in
theorem success_evicts_tried : ∃ store next : PeerStore Nat Nat, Reached oneSlot store ∧
      store.perform oneSlot (.recordSuccess 2 200000002) = .ok next ∧ settled store 1 200000002 = true ∧
      oneSlot.acceptable 1 = true ∧ next.records.lookup 1 = none := by
  have evaluated := success_evaluates
  simp only [bind_eq_ok, pure_eq_ok, and_eq_true, isNone_iff_eq_none] at evaluated
  obtain ⟨store, performs, next, succeeds, isSettled, gone⟩ := evaluated
  exact ⟨store, next, Reached.empty.foldlM performs, succeeds, isSettled, rfl, gone⟩

end Rbtc.Peers
