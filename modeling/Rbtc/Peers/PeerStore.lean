import Rbtc.Foundation.NetChange
import Rbtc.Foundation.Words
import Mathlib.Algebra.Order.Ring.Int

/-! The bounded pool of peer addresses (`peer_store.rs`), over any bucket hash and policy. Its retention
loop keeps distinct tried slots within the limit. -/

namespace Rbtc.Peers

open Foundation Prod Table

def maxStoredPeers : Nat := 4096
def maxPeersPerSourceGroup : Nat := 64
def newBucketCount : Nat := 1024
def triedBucketCount : Nat := 256
def bucketCapacity : Nat := 64
def newBucketsPerSourceGroup : Nat := 64
def triedBucketsPerAddressGroup : Nat := 8
def maxNewReferences : Nat := 8
def addressHorizonSecs : Nat := 30 * 24 * 60 * 60
def addressTimePenaltySecs : Nat := 2 * 60 * 60
def badTimestampReplacementAgeSecs : Nat := 5 * 24 * 60 * 60
def maxFutureSecs : Nat := 10 * 60
def minReasonableTimestamp : Nat := 100000000
def maxRecordedHandshakeMillis : Nat := 60000
def maxRecordedBlockThroughputBps : Nat := 1000000000
def maxTriedCollisions : Nat := 10
def terribleRecentAttemptSecs : Nat := 60
def terribleUnprovenFailures : Nat := 3
def terribleProvenFailures : Nat := 10
def terribleProvenSuccessHorizonSecs : Nat := 7 * 24 * 60 * 60

def requiredServices : Nat := 9

def hasRequired (services : Nat) : Bool := services &&& requiredServices == requiredServices

structure StoredPeer (γ : Type) where
  services : Nat
  lastSeen : Nat
  sourceGroup : γ
  lastAttempt : Nat
  lastSuccess : Nat
  consecutiveFailures : Nat
  lastSessionSuccess : Nat
  successfulSessions : Nat
  handshakeMillis : Nat
  blockThroughputBps : Nat
  inNewTable : Bool
  newSourceGroups : List γ
  deriving DecidableEq, Repr

structure StoredTriedCollision (α : Type) where
  challenger : α
  incumbent : α
  createdAt : Nat
  deriving DecidableEq, Repr

structure PeerAddress (α : Type) where
  socket : α
  services : Nat
  lastSeen : Nat

inductive PeerStoreError where
  | malformed (text : String)
  deriving DecidableEq, Repr

inductive BucketDomain where
  | newSource
  | newBucket
  | triedAddress
  | triedBucket
  | triedSlot

inductive BucketComponent (α γ : Type) where
  | address (address : α)
  | group (group : γ)
  | number (number : Nat)

/-- The keyed bucket hash, the diversity groups, and which addresses the network admits. -/
structure PeerPolicy (α γ : Type) where
  bucketHash : BucketDomain → List (BucketComponent α γ) → Nat
  addressGroup : α → γ
  seedNameSourceGroup : γ
  acceptable : α → Bool

/-- The stored peers by address. -/
abbrev Records (α γ : Type) := Table α (StoredPeer γ)

structure PeerStore (α γ : Type) where
  records : Records α γ
  collisions : List (StoredTriedCollision α)

section
variable {γ : Type}

def recordIsTried (record : StoredPeer γ) : Bool := record.lastSuccess != 0 && !record.inNewTable

def normalizeLastSeen (lastSeen now : Nat) : Nat :=
  let reasonable := minReasonableTimestamp < lastSeen ∧ lastSeen ≤ saturatingAdd 32 now maxFutureSecs
  let normalized := if reasonable then lastSeen else now - badTimestampReplacementAgeSecs
  normalized - addressTimePenaltySecs

def isTerrible (record : StoredPeer γ) (now : Nat) : Bool :=
  if record.lastAttempt ≠ 0 ∧ now - terribleRecentAttemptSecs ≤ record.lastAttempt then false
  else if saturatingAdd 32 now maxFutureSecs < record.lastSeen ∨ record.lastSeen = 0 ∨
      addressHorizonSecs < now - record.lastSeen then true
  else if record.lastSuccess = 0 then decide (terribleUnprovenFailures ≤ record.consecutiveFailures)
  else decide (terribleProvenSuccessHorizonSecs < now - record.lastSuccess ∧
    terribleProvenFailures ≤ record.consecutiveFailures)

/-- The lexicographic rank of a record, the best first; reversed components are negated. -/
def peerPriority (record : StoredPeer γ) : List ℤ :=
  [record.consecutiveFailures, if record.lastSessionSuccess = 0 then 1 else 0, -record.lastSessionSuccess,
    -record.successfulSessions, if record.handshakeMillis = 0 then 1 else 0, record.handshakeMillis,
    -record.blockThroughputBps, -record.lastSuccess, -record.lastSeen]

variable [DecidableEq γ]

def decodeStoredPeer (record : StoredPeer γ) : Except PeerStoreError (StoredPeer γ) := do
  ensure ((record.lastSessionSuccess = 0 ↔ record.successfulSessions = 0) ∧
    record.lastSessionSuccess ≤ record.lastSuccess) (.malformed "peer session success history")
  ensure (record.handshakeMillis ≤ maxRecordedHandshakeMillis) (.malformed "peer handshake latency")
  ensure (record.blockThroughputBps ≤ maxRecordedBlockThroughputBps) (.malformed "peer block throughput")
  ensure (¬ (record.inNewTable = true ∧ record.lastSuccess = 0)) (.malformed "peer table membership")
  ensure (record.newSourceGroups.length < maxNewReferences ∧ record.sourceGroup ∉ record.newSourceGroups ∧
    record.newSourceGroups.Nodup ∧ (recordIsTried record = true → record.newSourceGroups = []))
    (.malformed "peer new-table references")
  return record

def acceptNewReferenceRoll (referenceCount roll : Nat) : Bool :=
  roll % 2 ^ min referenceCount maxNewReferences == 0

def maybeAddNewReference (primary : γ) (remainsNew : Bool) (candidate : γ) (roll : Nat) (references : List γ) :
    List γ :=
  if remainsNew = true ∧ candidate ≠ primary ∧ candidate ∉ references ∧
      1 + references.length < maxNewReferences ∧ acceptNewReferenceRoll (1 + references.length) roll = true then
    references ++ [candidate]
  else references

end

section
variable {α γ : Type} [DecidableEq γ] (policy : PeerPolicy α γ)

def newBucket (address : α) (learnedFrom : γ) : Nat :=
  let selector := policy.bucketHash .newSource [.group learnedFrom, .group (policy.addressGroup address)] %
    newBucketsPerSourceGroup
  policy.bucketHash .newBucket [.group learnedFrom, .number selector] % newBucketCount

def newBuckets (address : α) (record : StoredPeer γ) : List Nat :=
  ((record.sourceGroup :: record.newSourceGroups).map (newBucket policy address)).dedup

def triedBucket (address : α) : Nat :=
  let selector := policy.bucketHash .triedAddress [.address address] % triedBucketsPerAddressGroup
  policy.bucketHash .triedBucket [.group (policy.addressGroup address), .number selector] % triedBucketCount

def triedPosition (address : α) : Nat × Nat :=
  let bucket := triedBucket policy address
  (bucket, policy.bucketHash .triedSlot [.number bucket, .address address] % bucketCapacity)

end

section
variable {α γ : Type} [LinearOrder α] [DecidableEq γ]

def retain (records : Records α γ) (keep : α → StoredPeer γ → Bool) : Records α γ :=
  ofList ((sortedEntries records).filter fun entry => keep entry.1 entry.2)

/-- The order of the records: by rank, ties broken by address. -/
abbrev Outranks (left right : α × StoredPeer γ) : Prop :=
  peerPriority left.2 < peerPriority right.2 ∨ peerPriority left.2 = peerPriority right.2 ∧ left.1 ≤ right.1

def byPriority (records : Records α γ) : List (α × StoredPeer γ) :=
  (sortedEntries records).insertionSort Outranks

/-- The entries in each new bucket and the slots taken in the tried table. -/
structure Occupancy where
  newBucketCounts : Table Nat Nat
  triedPositions : Finset (Nat × Nat)

def Occupancy.occupy (policy : PeerPolicy α γ) (occupancy : Occupancy) (entry : α × StoredPeer γ) :
    Option Occupancy :=
  if recordIsTried entry.2 then
    let position := triedPosition policy entry.1
    if position ∈ occupancy.triedPositions then none
    else some { occupancy with triedPositions := insert position occupancy.triedPositions }
  else
    let available := (newBuckets policy entry.1 entry.2).filter fun bucket =>
      (occupancy.newBucketCounts.lookup bucket).getD 0 < bucketCapacity
    if available = [] then none
    else some { occupancy with newBucketCounts := available.foldl increment occupancy.newBucketCounts }

/-- Keeps entries by rank up to the limit, each if its slot or one of its buckets has room. -/
def retainFrom (policy : PeerPolicy α γ) : Nat → Occupancy → List (α × StoredPeer γ) → List (α × StoredPeer γ)
  | _, _, [] => []
  | limit, occupancy, entry :: rest =>
    match occupancy.occupy policy entry with
    | none => retainFrom policy limit occupancy rest
    | some next => entry :: if limit = 1 then [] else retainFrom policy (limit - 1) next rest

def retainBucketed (policy : PeerPolicy α γ) (records : Records α γ) : List (α × StoredPeer γ) :=
  retainFrom policy maxStoredPeers ⟨∅, ∅⟩ (byPriority records)

def sanitizeTriedCollisions (policy : PeerPolicy α γ) (collisions : List (StoredTriedCollision α))
    (records : Records α γ) : List (StoredTriedCollision α) :=
  collisions.filter fun collision =>
    match records.lookup collision.challenger, records.lookup collision.incumbent with
    | some challenger, some incumbent =>
      !recordIsTried challenger && recordIsTried incumbent &&
        triedPosition policy collision.challenger == triedPosition policy collision.incumbent
    | _, _ => false

end

namespace PeerStore

variable {α γ : Type} [LinearOrder α] [DecidableEq γ]

def empty : PeerStore α γ := ⟨∅, []⟩

def loadRecords (store : PeerStore α γ) : Except PeerStoreError (Records α γ) := do
  let _ ← (sortedEntries store.records).mapM fun entry => decodeStoredPeer entry.2
  return store.records

def loadTriedCollisions (store : PeerStore α γ) : Except PeerStoreError (List (StoredTriedCollision α)) := do
  ensure (store.collisions.length ≤ maxTriedCollisions) (.malformed "too many tried collisions")
  ensure ((∀ collision ∈ store.collisions, collision.createdAt ≠ 0 ∧ collision.challenger ≠ collision.incumbent) ∧
    (store.collisions.map StoredTriedCollision.challenger).Nodup) (.malformed "tried collision metadata")
  return store.collisions

def replaceAllAndCollisions (ordered : List (α × StoredPeer γ)) (collisions : List (StoredTriedCollision α)) :
    PeerStore α γ :=
  ⟨ofList ordered, collisions⟩

variable (policy : PeerPolicy α γ) (store : PeerStore α γ)

def replaceAll (ordered : List (α × StoredPeer γ)) : Except PeerStoreError (PeerStore α γ) := do
  let collisions ← store.loadTriedCollisions
  return replaceAllAndCollisions ordered (sanitizeTriedCollisions policy collisions (ofList ordered))

structure Discovery (α γ : Type) where
  records : Records α γ
  groupCount : Nat
  accepted : Nat
  rejected : Nat

def learnedPeer (group : γ) (services lastSeen : Nat) : StoredPeer γ :=
  { services, lastSeen, sourceGroup := group, lastAttempt := 0, lastSuccess := 0, consecutiveFailures := 0,
    lastSessionSuccess := 0, successfulSessions := 0, handshakeMillis := 0, blockThroughputBps := 0,
    inNewTable := false, newSourceGroups := [] }

/-- A new record while its source group has room, or the known one with a newer sighting or reference. -/
def learnedRecord (group : γ) (roll services lastSeen : Nat) (groupIsFull : Bool) :
    Option (StoredPeer γ) → Option (StoredPeer γ)
  | none => if groupIsFull then none else some (learnedPeer group services lastSeen)
  | some record =>
    let references := maybeAddNewReference record.sourceGroup (!recordIsTried record) group roll
      record.newSourceGroups
    if lastSeen ≤ record.lastSeen then
      if references.length = record.newSourceGroups.length then none
      else some { record with newSourceGroups := references }
    else some { record with services, lastSeen, newSourceGroups := references }

def learn (group : γ) (now : Nat) (state : Discovery α γ) (incoming : PeerAddress α × Nat) : Discovery α γ :=
  let address := incoming.1
  let lastSeen := normalizeLastSeen address.lastSeen now
  let existing := state.records.lookup address.socket
  let accepted :=
    if hasRequired address.services = false ∨ policy.acceptable address.socket = false then none
    else if addressHorizonSecs < now - lastSeen then none
    else learnedRecord group incoming.2 address.services lastSeen
      (decide (maxPeersPerSourceGroup ≤ state.groupCount)) existing
  match accepted with
  | none => { state with rejected := state.rejected + 1 }
  | some record =>
    { state with
      records := state.records.insert address.socket record
      groupCount := if existing.isNone then state.groupCount + 1 else state.groupCount
      accepted := state.accepted + 1 }

def eligible (records : Records α γ) (now : Nat) : Records α γ :=
  retain records fun address record =>
    hasRequired record.services && policy.acceptable address && !isTerrible record now

/-- The eligible records with what is learned from the addresses, latest sighting first. -/
def discover (stored : Records α γ) (group : γ) (addresses : List (PeerAddress α × Nat))
    (now : Nat) : Discovery α γ :=
  let records := eligible policy stored now
  let groupCount := (sortedEntries records).countP fun entry =>
    !recordIsTried entry.2 && decide (entry.2.sourceGroup = group)
  let incoming := addresses.insertionSort fun left right => right.1.lastSeen ≤ left.1.lastSeen
  incoming.foldl (learn policy group now) ⟨records, groupCount, 0, 0⟩

def insertDiscoveredInGroup (group : γ) (addresses : List (PeerAddress α × Nat)) (now : Nat) :
    Except PeerStoreError (PeerStore α γ × (Nat × Nat)) := do
  let stored ← store.loadRecords
  let learned := discover policy stored group addresses now
  let next ← store.replaceAll policy (retainBucketed policy learned.records)
  return (next, (learned.accepted, learned.rejected))

def insertDiscovered (source : α) (addresses : List (PeerAddress α × Nat)) (now : Nat) :
    Except PeerStoreError (PeerStore α γ × (Nat × Nat)) :=
  store.insertDiscoveredInGroup policy (policy.addressGroup source) addresses now

def insertDiscoveredFromSeedName (addresses : List (PeerAddress α × Nat)) (now : Nat) :
    Except PeerStoreError (PeerStore α γ × (Nat × Nat)) :=
  store.insertDiscoveredInGroup policy policy.seedNameSourceGroup addresses now

def insertManual (address : α) (now roll : Nat) : Except PeerStoreError (PeerStore α γ × Bool) :=
  if policy.acceptable address = false then .ok (store, false)
  else do
    let (next, accepted, _) ← store.insertDiscovered policy address [(⟨address, requiredServices, now⟩, roll)] now
    return (next, decide (0 < accepted))

/-- The queue with a new collision: oldest first, the newest ones kept. -/
def queueCollision (collisions : List (StoredTriedCollision α)) (collision : StoredTriedCollision α) :
    List (StoredTriedCollision α) :=
  let sorted := (collisions ++ [collision]).insertionSort fun left right =>
    left.createdAt < right.createdAt ∨ left.createdAt = right.createdAt ∧ left.challenger ≤ right.challenger
  sorted.drop (sorted.length - maxTriedCollisions)

def slotIncumbent (records : Records α γ) (address : α) : Option α :=
  ((byPriority records).find? fun entry =>
    recordIsTried entry.2 && triedPosition policy entry.1 == triedPosition policy address).map fst

/-- A verified peer takes its slot when that is vacant, else it stays new and waits for a probe. -/
def placeVerified (records : Records α γ) (address : α) (now : Nat)
    (alreadyTried : Bool) (record : StoredPeer γ) (collisions : List (StoredTriedCollision α)) :
    StoredPeer γ × List (StoredTriedCollision α) :=
  if alreadyTried then ({ record with inNewTable := false, newSourceGroups := [] }, collisions)
  else match slotIncumbent policy records address with
    | some incumbent => ({ record with inNewTable := true }, queueCollision collisions ⟨address, incumbent, now⟩)
    | none => ({ record with inNewTable := false, newSourceGroups := [] }, collisions)

def insertVerified (address : α) (services now : Nat) : Except PeerStoreError (PeerStore α γ × Bool) :=
  if hasRequired services = false ∨ policy.acceptable address = false then .ok (store, false)
  else do
    let stored ← store.loadRecords
    let records := eligible policy stored now
    let existing := records.lookup address
    let others := records.erase address
    let known := existing.getD (learnedPeer (policy.addressGroup address) services (normalizeLastSeen now now))
    let record := { known with
      services
      lastSeen := max (normalizeLastSeen now now) known.lastSeen
      lastSuccess := now
      consecutiveFailures := 0 }
    let queued ← store.loadTriedCollisions
    let (placed, collisions) := placeVerified policy others address now (existing.any recordIsTried) record
      (queued.filter fun collision => collision.challenger != address)
    let ordered := retainBucketed policy (others.insert address placed)
    let retained := ofList ordered
    return (replaceAllAndCollisions ordered (sanitizeTriedCollisions policy collisions retained),
      decide (retained.lookup address ≠ none))

def updateExisting (address : α) (update : StoredPeer γ → StoredPeer γ) :
    Except PeerStoreError (PeerStore α γ × Bool) := do
  let records ← store.loadRecords
  match records.lookup address with
  | none => return (store, false)
  | some record =>
    let ordered := retainBucketed policy (records.insert address (update record))
    let next ← store.replaceAll policy ordered
    return (next, decide (next.records.lookup address ≠ none))

def recordAttempt (address : α) (now : Nat) : Except PeerStoreError (PeerStore α γ × Bool) :=
  store.updateExisting policy address fun record =>
    { record with lastAttempt := now, consecutiveFailures := saturatingAdd 8 record.consecutiveFailures 1 }

def recordSuccess (address : α) (now : Nat) : Except PeerStoreError (PeerStore α γ × Bool) :=
  store.updateExisting policy address fun record =>
    { record with lastSuccess := now, consecutiveFailures := 0, newSourceGroups := [] }

def recordHandshakeLatency (address : α) (millis : Nat) : Except PeerStoreError (PeerStore α γ × Bool) :=
  store.updateExisting policy address fun record =>
    { record with handshakeMillis := min (max 1 millis) maxRecordedHandshakeMillis }

def recordBlockThroughput (address : α) (bytesPerSecond : Nat) : Except PeerStoreError (PeerStore α γ × Bool) :=
  store.updateExisting policy address fun record =>
    { record with blockThroughputBps := min (max 1 bytesPerSecond) maxRecordedBlockThroughputBps }

def recordSessionSuccess (address : α) (now : Nat) : Except PeerStoreError (PeerStore α γ × Bool) :=
  store.updateExisting policy address fun record =>
    { record with
      lastSuccess := now
      consecutiveFailures := 0
      lastSessionSuccess := now
      successfulSessions := saturatingAdd 32 record.successfulSessions 1 }

def pruneTerrible (now : Nat) : Except PeerStoreError (PeerStore α γ × Nat) := do
  let stored ← store.loadRecords
  let records := retain stored fun _ record => !isTerrible record now
  let removed := stored.keys.card - records.keys.card
  if 0 < removed then do
    let next ← store.replaceAll policy (retainBucketed policy records)
    return (next, removed)
  else return (store, removed)

def forgetPeer (address : α) : Except PeerStoreError (PeerStore α γ × Bool) := do
  let records ← store.loadRecords
  match records.lookup address with
  | none => return (store, false)
  | some _ => do
      let next ← store.replaceAll policy (sortedEntries (records.erase address))
      return (next, true)

def updateStored (records : Records α γ) (address : α) (update : StoredPeer γ → StoredPeer γ) : Records α γ :=
  match records.lookup address with
  | some record => records.insert address (update record)
  | none => records

/-- A live incumbent is refreshed; a dead one is demoted and its best challenger promoted. -/
def probed (records : Records α γ) (incumbent : α) (challengers : List α) (alive : Bool) (now : Nat) :
    Records α γ :=
  if alive then updateStored records incumbent fun record =>
    { record with lastSuccess := now, consecutiveFailures := 0, inNewTable := false, newSourceGroups := [] }
  else
    let demoted := updateStored records incumbent fun record => { record with inNewTable := true }
    match ((byPriority records).find? fun entry => decide (entry.1 ∈ challengers)) with
    | some winner =>
      updateStored demoted winner.1 fun record => { record with inNewTable := false, newSourceGroups := [] }
    | none => demoted

def resolveTriedCollisionProbe (incumbent : α) (alive : Bool) (now : Nat) :
    Except PeerStoreError (PeerStore α γ × Bool) := do
  let records ← store.loadRecords
  let queued ← store.loadTriedCollisions
  let collisions := sanitizeTriedCollisions policy queued records
  let (matching, remaining) := collisions.partition fun collision => collision.incumbent == incumbent
  if matching = [] then return (store, false)
  else
    let challengers := matching.map StoredTriedCollision.challenger
    let ordered := retainBucketed policy (probed records incumbent challengers alive now)
    return (replaceAllAndCollisions ordered (sanitizeTriedCollisions policy remaining (ofList ordered)), true)

end PeerStore

/-- The calls that change the store. -/
inductive PeerCall (α : Type) where
  | insertDiscovered (source : α) (addresses : List (PeerAddress α × Nat)) (now : Nat)
  | insertDiscoveredFromSeedName (addresses : List (PeerAddress α × Nat)) (now : Nat)
  | insertManual (address : α) (now roll : Nat)
  | insertVerified (address : α) (services now : Nat)
  | recordAttempt (address : α) (now : Nat)
  | recordSuccess (address : α) (now : Nat)
  | recordSessionSuccess (address : α) (now : Nat)
  | recordHandshakeLatency (address : α) (millis : Nat)
  | recordBlockThroughput (address : α) (bytesPerSecond : Nat)
  | resolveTriedCollisionProbe (incumbent : α) (alive : Bool) (now : Nat)
  | pruneTerrible (now : Nat)
  | forgetPeer (address : α)

def PeerStore.perform {α γ : Type} [LinearOrder α] [DecidableEq γ] (policy : PeerPolicy α γ)
    (store : PeerStore α γ) : PeerCall α → Except PeerStoreError (PeerStore α γ)
  | .insertDiscovered source addresses now => fst <$> store.insertDiscovered policy source addresses now
  | .insertDiscoveredFromSeedName addresses now =>
    fst <$> store.insertDiscoveredFromSeedName policy addresses now
  | .insertManual address now roll => fst <$> store.insertManual policy address now roll
  | .insertVerified address services now => fst <$> store.insertVerified policy address services now
  | .recordAttempt address now => fst <$> store.recordAttempt policy address now
  | .recordSuccess address now => fst <$> store.recordSuccess policy address now
  | .recordSessionSuccess address now => fst <$> store.recordSessionSuccess policy address now
  | .recordHandshakeLatency address millis => fst <$> store.recordHandshakeLatency policy address millis
  | .recordBlockThroughput address bytesPerSecond =>
    fst <$> store.recordBlockThroughput policy address bytesPerSecond
  | .resolveTriedCollisionProbe incumbent alive now =>
    fst <$> store.resolveTriedCollisionProbe policy incumbent alive now
  | .pruneTerrible now => fst <$> store.pruneTerrible policy now
  | .forgetPeer address => fst <$> store.forgetPeer policy address

open List

variable {α γ : Type} {policy : PeerPolicy α γ}

section
variable [LinearOrder α]

section
variable (records : Records α γ)
include records

theorem perm_byPriority : (byPriority records).Perm (sortedEntries records) :=
  perm_insertionSort _ _

theorem nodup_byPriority : ((byPriority records).map Prod.fst).Nodup := by
  rw [((perm_byPriority records).map Prod.fst).nodup_iff, map_fst_sortedEntries]
  exact nodup_sortedKeys _

theorem length_byPriority : (byPriority records).length = records.keys.card := by
  have keys : (sortedKeys records.keys).length = records.keys.card := by
    rw [← Multiset.coe_card, perm_sortedKeys]
    rfl
  rw [(perm_byPriority records).length_eq, ← keys, ← map_fst_sortedEntries, length_map]

end

theorem mem_byPriority {records : Records α γ} {entry : α × StoredPeer γ} :
    entry ∈ byPriority records ↔ records.lookup entry.1 = some entry.2 :=
  (perm_byPriority records).mem_iff.trans mem_sortedEntries

end

section
variable {occupancy : Occupancy} {entry : α × StoredPeer γ}

theorem Occupancy.occupy_tried (tried : recordIsTried entry.2 = true) : occupancy.occupy policy entry =
      if triedPosition policy entry.1 ∈ occupancy.triedPositions then none
      else some { occupancy with
        triedPositions := insert (triedPosition policy entry.1) occupancy.triedPositions } := by
  simp [occupy, tried]

theorem Occupancy.occupy_new {next : Occupancy}
    (untried : recordIsTried entry.2 = false) (admitted : occupancy.occupy policy entry = some next) :
    next.triedPositions = occupancy.triedPositions := by
  simp only [occupy, untried, Bool.false_eq_true, if_false] at admitted
  split at admitted
  · cases admitted
  · cases admitted
    rfl

theorem retainFrom_sublist (policy : PeerPolicy α γ) (limit : Nat) (occupancy : Occupancy)
    (entries : List (α × StoredPeer γ)) : (retainFrom policy limit occupancy entries).Sublist entries := by
  induction entries generalizing limit occupancy with
  | nil => exact .slnil
  | cons entry rest ih =>
    rw [retainFrom]
    split
    · exact (ih limit occupancy).cons entry
    refine .cons_cons entry ?_
    split
    · exact nil_sublist rest
    · exact ih _ _

theorem length_retainFrom_le {limit : Nat} (positive : 0 < limit) (occupancy : Occupancy)
    (entries : List (α × StoredPeer γ)) : (retainFrom policy limit occupancy entries).length ≤ limit := by
  induction entries generalizing limit occupancy with
  | nil => exact Nat.zero_le limit
  | cons _ _ ih =>
    rw [retainFrom]
    split
    · exact ih positive occupancy
    split
    · next last => rw [last]; exact Nat.le_refl 1
    rw [length_cons]
    have shorter := @ih (limit - 1) (by omega) ‹_›
    omega

def ApartInTried (policy : PeerPolicy α γ) (left right : α × StoredPeer γ) : Prop :=
  recordIsTried left.2 = true → recordIsTried right.2 = true →
    triedPosition policy left.1 ≠ triedPosition policy right.1

instance : Std.Symm (ApartInTried policy) where
  symm _ _ apart triedRight triedLeft same := apart triedLeft triedRight same.symm

theorem retainFrom_slots (limit : Nat) (occupancy : Occupancy) (entries : List (α × StoredPeer γ)) :
    (∀ kept ∈ retainFrom policy limit occupancy entries, recordIsTried kept.2 = true →
        triedPosition policy kept.1 ∉ occupancy.triedPositions) ∧
      (retainFrom policy limit occupancy entries).Pairwise (ApartInTried policy) := by
  induction entries generalizing limit occupancy with
  | nil => exact ⟨by simp [retainFrom], .nil⟩
  | cons entry rest ih =>
    rw [retainFrom]
    split
    · exact ih limit occupancy
    rename_i next admitted
    -- The slots after the entry are those before it, and its own if it is tried.
    have later : ∀ kept ∈ (if limit = 1 then [] else retainFrom policy (limit - 1) next rest),
        recordIsTried kept.2 = true → triedPosition policy kept.1 ∉ next.triedPositions := by
      split
      · simp
      · exact (ih _ _).1
    have apart : (if limit = 1 then [] else retainFrom policy (limit - 1) next rest).Pairwise
        (ApartInTried policy) := by
      split
      · exact .nil
      · exact (ih _ _).2
    cases tried : recordIsTried entry.2 with
    | false =>
      rw [Occupancy.occupy_new tried admitted] at later
      refine ⟨forall_mem_cons.mpr ⟨fun isTried => ?_, later⟩, .cons (fun kept _ isTried => ?_) apart⟩
      · rw [tried] at isTried
        cases isTried
      · rw [tried] at isTried
        cases isTried
    | true =>
      rw [Occupancy.occupy_tried tried] at admitted
      split at admitted
      · cases admitted
      rename_i free
      cases admitted
      refine ⟨forall_mem_cons.mpr ⟨fun _ => free, fun kept member isTried => ?_⟩,
        .cons (fun kept member _ isTried same => ?_) apart⟩
      · exact fun taken => later kept member isTried (Finset.mem_insert_of_mem taken)
      · exact later kept member isTried (same ▸ Finset.mem_insert_self ..)

end

def TriedAt [LinearOrder α] (records : Records α γ) (address : α) : Prop :=
  ∃ record, records.lookup address = some record ∧ recordIsTried record = true

def SlotsDistinct [LinearOrder α] (policy : PeerPolicy α γ) (records : Records α γ) : Prop :=
  ∀ left right, TriedAt records left → TriedAt records right →
    triedPosition policy left = triedPosition policy right → left = right

variable [LinearOrder α] {records : Records α γ}

theorem nodup_retainBucketed (policy : PeerPolicy α γ) (records : Records α γ) :
    ((retainBucketed policy records).map Prod.fst).Nodup :=
  (nodup_byPriority records).sublist ((retainFrom_sublist ..).map Prod.fst)

variable {address : α} {record : StoredPeer γ}

theorem lookup_of_retained (found : (ofList (retainBucketed policy records)).lookup address = some record) :
    records.lookup address = some record := by
  have member := (retainFrom_sublist ..).subset (mem_of_lookup_ofList found)
  exact mem_byPriority.mp member

theorem card_retainBucketed_le (policy : PeerPolicy α γ) (records : Records α γ) :
    (ofList (retainBucketed policy records)).keys.card ≤ maxStoredPeers := by
  rw [card_keys_ofList (nodup_retainBucketed policy records)]
  exact length_retainFrom_le (by decide) _ _

theorem slotsDistinct_retainBucketed (policy : PeerPolicy α γ) (records : Records α γ) :
    SlotsDistinct policy (ofList (retainBucketed policy records)) := by
  rintro left right ⟨leftRecord, foundLeft, triedLeft⟩ ⟨rightRecord, foundRight, triedRight⟩ same
  by_contra differ
  have apart := (@retainFrom_slots _ _ policy maxStoredPeers ⟨∅, ∅⟩ (byPriority records)).2
  have distinct : (left, leftRecord) ≠ (right, rightRecord) := fun equal => differ (Prod.ext_iff.mp equal).1
  exact apart.forall (mem_of_lookup_ofList foundLeft) (mem_of_lookup_ofList foundRight) distinct
    triedLeft triedRight same

theorem sorted_byPriority (records : Records α γ) : (byPriority records).Pairwise Outranks := by
  have total : Std.Total (Outranks : α × StoredPeer γ → α × StoredPeer γ → Prop) := ⟨by grind⟩
  have trans : IsTrans (α × StoredPeer γ) Outranks := ⟨by grind⟩
  exact pairwise_insertionSort ..

/-- A tried entry alone in its slot is kept if the limit has room for all that outrank it. -/
theorem mem_retainFrom {limit : Nat} {occupancy : Occupancy} {entry : α × StoredPeer γ}
    {entries : List (α × StoredPeer γ)} (member : entry ∈ entries) (tried : recordIsTried entry.2 = true)
    (sorted : entries.Pairwise Outranks) (room : entries.countP (fun other => Outranks other entry) ≤ limit)
    (free : triedPosition policy entry.1 ∉ occupancy.triedPositions)
    (alone : ∀ other ∈ entries, recordIsTried other.2 = true →
      triedPosition policy other.1 = triedPosition policy entry.1 → other = entry) :
    entry ∈ retainFrom policy limit occupancy entries := by
  induction entries generalizing limit occupancy with
  | nil => cases member
  | cons first rest ih =>
    rw [forall_mem_cons] at alone
    rw [pairwise_cons] at sorted
    rw [retainFrom]
    by_cases same : first = entry
    · rw [same, Occupancy.occupy_tried tried, if_neg free]
      exact mem_cons_self
    have later : entry ∈ rest := (mem_cons.mp member).resolve_left (Ne.symm same)
    have counted : 0 < rest.countP fun other => Outranks other entry := countP_pos_iff.mpr ⟨entry, later, by simp⟩
    rw [countP_cons_of_pos (by simpa using sorted.1 entry later)] at room
    split
    · exact ih later sorted.2 (by omega) free alone.2
    rename_i next admitted
    rw [if_neg (by omega)]
    refine .tail _ (ih later sorted.2 (by omega) ?_ alone.2)
    cases isTried : recordIsTried first.2 with
    | false => rwa [Occupancy.occupy_new isTried admitted]
    | true =>
      rw [Occupancy.occupy_tried isTried] at admitted
      split at admitted
      · cases admitted
      · cases admitted
        rw [Finset.mem_insert, not_or]
        exact ⟨fun equal => same (alone.1 isTried equal.symm), free⟩

theorem lookup_retainBucketed (distinct : SlotsDistinct policy records)
    (found : records.lookup address = some record) (tried : recordIsTried record = true)
    (room : (byPriority records).countP (fun other => Outranks other (address, record)) ≤ maxStoredPeers) :
    (ofList (retainBucketed policy records)).lookup address = some record := by
  have kept : (address, record) ∈ retainBucketed policy records := by
    refine mem_retainFrom (mem_byPriority.mpr found) tried (sorted_byPriority records) room
      (Finset.notMem_empty _) fun other member isTried same => ?_
    have isOther := mem_byPriority.mp member
    have sameAddress := distinct _ _ ⟨_, isOther, isTried⟩ ⟨_, found, tried⟩ same
    rw [sameAddress, found] at isOther
    exact Prod.ext sameAddress (Option.some.inj isOther).symm
  exact lookup_ofList_of_mem (nodup_retainBucketed policy records) kept

end Rbtc.Peers
