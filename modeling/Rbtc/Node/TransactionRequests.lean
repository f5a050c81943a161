import Rbtc.Bitcoin.Primitives
import Mathlib.Data.List.Sort

/-! The scheduler of transaction requests: the announcements of all sources in one queue. -/

namespace Rbtc.Node.TransactionRequest

open Bitcoin List

def maxAnnouncements : Nat := 1_024
def maxAnnouncementsPerSource : Nat := 64
def transactionRequestTimeoutSecs : Nat := 60

inductive Id where
  | txid (hash : Txid)
  | wtxid (hash : Nat)
  deriving DecidableEq

def Id.rawHash : Id → Nat
  | .txid hash => hash.value
  | .wtxid hash => hash

inductive State where
  | candidate (notBefore : Nat)
  | inFlight (expiresAt : Nat)
  | completed
  deriving DecidableEq

def State.isInFlight : State → Bool
  | .inFlight _ => true
  | _ => false

structure Announcement where
  id : Id
  source : Nat
  sequence : Nat
  state : State
  deriving DecidableEq

namespace Announcement

def rawHash (announcement : Announcement) : Nat := announcement.id.rawHash

def expired (now : Nat) (announcement : Announcement) : Bool :=
  match announcement.state with
  | .inFlight expiresAt => expiresAt ≤ now
  | _ => false

def expire (now : Nat) (announcement : Announcement) : Announcement :=
  if announcement.expired now then { announcement with state := .completed } else announcement

def underWay (now : Nat) (announcement : Announcement) : Bool :=
  announcement.state.isInFlight && !announcement.expired now

def selectable (source now : Nat) (inFlight : List Nat) (announcement : Announcement) : Bool :=
  match announcement.state with
  | .candidate notBefore =>
    announcement.source = source && notBefore ≤ now && announcement.rawHash ∉ inFlight
  | _ => false

end Announcement

structure Queue where
  announcements : List Announcement := []
  nextSequence : Nat := 0

inductive RequestEvent where
  | announce (source : Nat) (ids : List Id) (notBefore : Nat)
  | take (source now limit : Nat)
  | complete (source : Nat) (id : Id)
  | forget (id : Id)
  | disconnect (source : Nat)
  | confirm (transactions : List (Txid × Nat))

namespace Queue

/-- One round of the announcing loop. It panics when the sequence numbers are used up. -/
def announceOne (source notBefore : Nat) (progress : Queue × Nat) (id : Id) : Option (Queue × Nat) :=
  let requests := progress.1
  if maxAnnouncements ≤ requests.announcements.length ∨ maxAnnouncementsPerSource ≤
        requests.announcements.countP (·.source = source) ∨
      ∃ other ∈ requests.announcements, other.source = source ∧ other.rawHash = id.rawHash then
    some progress
  else if requests.nextSequence + 1 < 2 ^ 64 then
    some (⟨requests.announcements ++ [⟨id, source, requests.nextSequence, .candidate notBefore⟩],
      requests.nextSequence + 1⟩, progress.2 + 1)
  else none

variable (requests : Queue)

def announceTransactionRequests (source : Nat)
    (ids : List Id) (notBefore : Nat) : Option (Queue × Nat) :=
  ids.foldlM (announceOne source notBefore) (requests, 0)

def pruneCompleted (announcements : List Announcement) : List Announcement :=
  let live := (announcements.filter (·.state ≠ .completed)).map (·.rawHash)
  announcements.filter fun announcement =>
    announcement.state ≠ .completed ∨ announcement.rawHash ∈ live

def inFlightHashes (announcements : List Announcement) : List Nat :=
  (announcements.filter (·.state.isInFlight)).map (·.rawHash)

def selectedIndexes (source now limit : Nat) (inFlight : List Nat) (announcements : List Announcement) : List Nat :=
  let selected := (announcements.zipIdx.filter (·.1.selectable source now inFlight)).map
    fun entry => (entry.1.sequence, entry.2)
  ((selected.insertionSort fun first second =>
    first.1 < second.1 ∨ first.1 = second.1 ∧ first.2 ≤ second.2).take limit).map (·.2)

def markInFlight (indexes : List Nat) (expiry : Nat) (announcements : List Announcement) : List Announcement :=
  announcements.zipIdx.map fun entry =>
    if entry.2 ∈ indexes then { entry.1 with state := .inFlight expiry } else entry.1

def takeTransactionRequests (source now limit : Nat) : Queue × List Id :=
  let announcements := pruneCompleted (requests.announcements.map (·.expire now))
  let indexes := selectedIndexes source now limit (inFlightHashes announcements) announcements
  let expiry := min (now + transactionRequestTimeoutSecs) (2 ^ 64 - 1)
  ({ requests with announcements := markInFlight indexes expiry announcements },
    indexes.filterMap fun index => announcements[index]?.map (·.id))

def completeFirst (source hash : Nat) : List Announcement → List Announcement
  | [] => []
  | announcement :: rest =>
    if announcement.source = source ∧ announcement.rawHash = hash then
      { announcement with state := .completed } :: rest
    else announcement :: completeFirst source hash rest

def completeTransactionRequest (source : Nat) (id : Id) : Queue × Bool :=
  if ∃ other ∈ requests.announcements, other.source = source ∧ other.rawHash = id.rawHash then
    ({ requests with
      announcements := pruneCompleted (completeFirst source id.rawHash requests.announcements) }, true)
  else (requests, false)

def forgetTransactionRequest (id : Id) : Queue × Nat :=
  let kept := requests.announcements.filter (·.rawHash ≠ id.rawHash)
  ({ requests with announcements := kept }, requests.announcements.length - kept.length)

def forgetTransactionRequestsFor (transaction : Txid × Nat) : Queue × Nat :=
  let (first, removed) := requests.forgetTransactionRequest (.txid transaction.1)
  let (second, others) := first.forgetTransactionRequest (.wtxid transaction.2)
  (second, removed + others)

def disconnectTransactionRequestSource (source : Nat) : Queue × Nat :=
  let kept := pruneCompleted (requests.announcements.filter (·.source ≠ source))
  ({ requests with announcements := kept }, requests.announcements.length - kept.length)

def step (requests : Queue) : RequestEvent → Option Queue
  | .announce source ids notBefore =>
    (requests.announceTransactionRequests source ids notBefore).map (·.1)
  | .take source now limit => some (requests.takeTransactionRequests source now limit).1
  | .complete source id => some (requests.completeTransactionRequest source id).1
  | .forget id => some (requests.forgetTransactionRequest id).1
  | .disconnect source => some (requests.disconnectTransactionRequestSource source).1
  | .confirm transactions =>
    some (transactions.foldl (fun left transaction =>
      (left.forgetTransactionRequestsFor transaction).1) requests)

def run (events : List RequestEvent) : Option Queue :=
  events.foldlM step {}

end Queue

/-- The same announcement, in flight only if it was permitted to be. -/
structure Announcement.Keeps (permitted : Announcement → Prop) (after before : Announcement) : Prop where
  id : after.id = before.id
  source : after.source = before.source
  sequence : after.sequence = before.sequence
  inFlight : after.state.isInFlight → permitted before

section
variable {α : Type*} {Rel : α → α → Prop} {after before : List α}
  (kept : List.SublistForall₂ Rel after before)
include kept

theorem exists_mem_of_kept {x : α} (member : x ∈ after) : ∃ y ∈ before, Rel x y := by
  induction kept with
  | nil => cases member
  | cons related _ ih =>
    cases member with
    | head => exact ⟨_, .head _, related⟩
    | tail _ later =>
      obtain ⟨y, inRest, found⟩ := ih later
      exact ⟨y, .tail _ inRest, found⟩
  | cons_right _ ih =>
    obtain ⟨y, inRest, found⟩ := ih member
    exact ⟨y, .tail _ inRest, found⟩

theorem pairwise_of_kept {P Q : α → α → Prop}
    (carries : ∀ {a b x y}, Rel a x → Rel b y → P x y → Q a b) (holds : before.Pairwise P) : after.Pairwise Q := by
  induction kept with
  | nil => exact .nil
  | cons related rest ih =>
    obtain ⟨first, later⟩ := pairwise_cons.mp holds
    refine pairwise_cons.mpr ⟨fun other member => ?_, ih later⟩
    obtain ⟨y, inRest, found⟩ := exists_mem_of_kept rest member
    exact carries related found (first y inRest)
  | cons_right _ ih => exact ih holds.of_cons

theorem countP_le_of_kept {p : α → Bool} (same : ∀ {a x}, Rel a x → p a = p x) : after.countP p ≤ before.countP p := by
  induction kept with
  | nil => exact Nat.zero_le _
  | cons related _ ih =>
    rw [countP_cons, countP_cons, same related]
    exact Nat.add_le_add_right ih _
  | cons_right _ ih =>
    rw [countP_cons]
    exact Nat.le_add_right_of_le ih

end

namespace Queue

open Announcement

variable {requests : Queue}

/-- In order of arrival, one announcement per source and hash, one request in flight per hash, within the limits. -/
structure Sound (requests : Queue) : Prop where
  ordered : requests.announcements.Pairwise (·.sequence < ·.sequence)
  below : ∀ announcement ∈ requests.announcements, announcement.sequence < requests.nextSequence
  apart : requests.announcements.Pairwise fun first second =>
    first.source = second.source → first.rawHash ≠ second.rawHash
  exclusive : requests.announcements.Pairwise fun first second =>
    first.state.isInFlight → second.state.isInFlight → first.rawHash ≠ second.rawHash
  total : requests.announcements.length ≤ maxAnnouncements
  share : ∀ source, requests.announcements.countP (·.source = source) ≤ maxAnnouncementsPerSource

theorem Sound.keeps (sound : Sound requests) {permitted : Announcement → Prop} {announcements : List Announcement}
    (kept : List.SublistForall₂ (Keeps permitted) announcements requests.announcements)
    (exclusive : requests.announcements.Pairwise fun first second =>
      permitted first → permitted second → first.rawHash ≠ second.rawHash) : Sound { requests with announcements } where
  ordered := pairwise_of_kept kept
    (fun first second less => by rwa [first.sequence, second.sequence]) sound.ordered
  below := by
    intro announcement member
    obtain ⟨before, present, same⟩ := exists_mem_of_kept kept member
    rw [same.sequence]
    exact sound.below before present
  apart := pairwise_of_kept kept (fun first second differs => by
      rwa [first.source, second.source, rawHash, rawHash, first.id, second.id]) sound.apart
  exclusive := pairwise_of_kept kept (fun first second differs mine other => by
      rw [rawHash, rawHash, first.id, second.id]
      exact differs (first.inFlight mine) (second.inFlight other)) exclusive
  total := by
    have fewer := countP_le_of_kept kept (p := fun _ => true) fun _ => rfl
    rw [countP_true] at fewer
    exact fewer.trans sound.total
  share := by
    intro source
    have fewer := countP_le_of_kept kept (p := (·.source = source)) fun same => by rw [same.source]
    exact fewer.trans (sound.share source)

instance : Std.Refl (Keeps fun announcement => announcement.state.isInFlight) :=
  ⟨fun _ => ⟨rfl, rfl, rfl, id⟩⟩

theorem Sound.filter (sound : Sound requests) (p : Announcement → Bool) :
    Sound { requests with announcements := requests.announcements.filter p } :=
  sound.keeps filter_sublist.sublistForall₂ sound.exclusive

theorem Sound.expire (sound : Sound requests) (now : Nat) :
    Sound { requests with announcements := requests.announcements.map (·.expire now) } := by
  refine sound.keeps (sublistForall₂_iff.mpr ⟨_, ?_, .refl _⟩) sound.exclusive
  refine forall₂_map_left_iff.mpr (forall₂_same.mpr fun announcement _ => ?_)
  rw [Announcement.expire]
  split
  · exact ⟨rfl, rfl, rfl, by simp [State.isInFlight]⟩
  · exact ⟨rfl, rfl, rfl, id⟩

theorem completeFirst_keeps (source hash : Nat) (announcements : List Announcement) :
    List.SublistForall₂ (Keeps fun announcement => announcement.state.isInFlight)
      (completeFirst source hash announcements) announcements := by
  induction announcements with
  | nil => exact .nil
  | cons _ rest ih =>
    rw [completeFirst]
    split
    · exact .cons ⟨rfl, rfl, rfl, by simp [State.isInFlight]⟩ (List.Sublist.refl rest).sublistForall₂
    · exact .cons ⟨rfl, rfl, rfl, id⟩ ih

variable {source notBefore : Nat} {progress after : Queue × Nat}

theorem Sound.announceOne {id : Id} (sound : Sound progress.1)
    (announced : announceOne source notBefore progress id = some after) : Sound after.1 := by
  rw [Queue.announceOne] at announced
  split at announced
  · cases announced
    exact sound
  rename_i room
  simp only [not_or, not_le] at room
  obtain ⟨space, share, fresh⟩ := room
  split at announced
  · cases announced
    constructor
    · refine pairwise_append.mpr ⟨sound.ordered, pairwise_singleton .., ?_⟩
      simpa using sound.below
    · intro announcement member
      cases mem_append.mp member with
      | inl old => exact Nat.lt_succ_of_lt (sound.below announcement old)
      | inr new =>
        rw [mem_singleton.mp new]
        exact Nat.lt_succ_self _
    · refine pairwise_append.mpr ⟨sound.apart, pairwise_singleton .., ?_⟩
      simpa [rawHash] using fresh
    · refine pairwise_append.mpr ⟨sound.exclusive, pairwise_singleton .., ?_⟩
      simp [State.isInFlight]
    · simpa using Nat.succ_le_of_lt space
    · intro other
      by_cases mine : source = other
      · subst mine
        simpa using Nat.succ_le_of_lt share
      · simpa [mine] using sound.share other
  · cases announced

theorem Sound.announce {ids : List Id} (sound : Sound progress.1)
    (announced : ids.foldlM (Queue.announceOne source notBefore) progress = some after) : Sound after.1 := by
  induction ids generalizing progress with
  | nil =>
    cases announced
    exact sound
  | cons _ _ ih =>
    obtain ⟨_, first, later⟩ := Option.bind_eq_some_iff.mp announced
    exact ih (sound.announceOne first) later

theorem selectable_iff {now : Nat} {inFlight : List Nat} {announcement : Announcement} :
    announcement.selectable source now inFlight ↔
      ∃ notBefore, announcement.state = .candidate notBefore ∧ announcement.source = source ∧
        notBefore ≤ now ∧ announcement.rawHash ∉ inFlight := by
  cases state : announcement.state <;> simp [selectable, state, and_assoc]

section
variable {announcements : List Announcement}

theorem selectedIndexes_eq (ordered : announcements.Pairwise (·.sequence < ·.sequence))
    (source now limit : Nat) (inFlight : List Nat) : selectedIndexes source now limit inFlight announcements =
      ((announcements.zipIdx.filter (·.1.selectable source now inFlight)).take limit).map (·.2) := by
  have entries : announcements.zipIdx.Pairwise fun first second =>
      first.1.sequence < second.1.sequence := by
    rwa [← zipIdx_map_fst 0 announcements, pairwise_map] at ordered
  rw [selectedIndexes, List.Pairwise.insertionSort_eq, ← map_take, map_map]
  · rfl
  · exact pairwise_map.mpr ((entries.filter _).imp Or.inl)

theorem Sound.mark (sound : Sound requests) (source now limit expiry : Nat) : Sound { requests with
      announcements := markInFlight (selectedIndexes source now limit
        (inFlightHashes requests.announcements) requests.announcements) expiry requests.announcements } := by
  refine @Sound.keeps _ sound (fun announcement => announcement.state.isInFlight ∨
    announcement.selectable source now (inFlightHashes requests.announcements)) _
    (sublistForall₂_iff.mpr ⟨_, ?_, .refl _⟩) ?_
  · rw [selectedIndexes_eq sound.ordered, markInFlight, forall₂_map_left_iff]
    conv => arg 3; rw [← zipIdx_map_fst 0 requests.announcements]
    refine forall₂_map_right_iff.mpr (forall₂_same.mpr fun entry member => ?_)
    split
    · next chosen =>
      obtain ⟨_, selected, same⟩ := mem_map.mp chosen
      obtain ⟨present, select⟩ := mem_filter.mp (mem_of_mem_take selected)
      have here := mem_zipIdx_iff_getElem?.mp member
      have there := mem_zipIdx_iff_getElem?.mp present
      rw [same, here] at there
      rw [← Option.some.inj there] at select
      exact ⟨rfl, rfl, rfl, fun _ => .inr select⟩
    · exact ⟨rfl, rfl, rfl, .inl⟩
  · have flies {announcement : Announcement}
        (member : announcement ∈ requests.announcements) (flying : announcement.state.isInFlight) :
        announcement.rawHash ∈ inFlightHashes requests.announcements :=
      mem_map_of_mem (mem_filter.mpr ⟨member, flying⟩)
    refine (sound.apart.and sound.exclusive).imp_of_mem fun inFirst inSecond differ => ?_
    simp only [selectable_iff]
    rintro (flying | ⟨_, _, mine, _, free⟩) (alsoFlying | ⟨_, _, others, _, alsoFree⟩)
    · exact differ.2 flying alsoFlying
    · exact fun same => alsoFree (same ▸ flies inFirst flying)
    · exact fun same => free (same ▸ flies inSecond alsoFlying)
    · exact differ.1 (mine.trans others.symm)

end

/-- The announcements a take of a source may request: no other request of the hash is under way. -/
def eligible (requests : Queue) (source now : Nat) : List Announcement :=
  requests.announcements.filter (·.selectable source now
    ((requests.announcements.filter (·.underWay now)).map (·.rawHash)))

section
variable (sound : Sound requests)
include sound

theorem Sound.forget (transactions : List (Txid × Nat)) : Sound (transactions.foldl (fun left transaction =>
      (left.forgetTransactionRequestsFor transaction).1) requests) := by
  induction transactions generalizing requests with
  | nil => exact sound
  | cons _ _ ih => exact ih ((sound.filter _).filter _)

theorem Sound.step {after : Queue}
    {event : RequestEvent} (stepped : requests.step event = some after) : Sound after := by
  cases event with
  | announce source _ _ =>
    obtain ⟨_, announced, rfl⟩ := Option.map_eq_some_iff.mp stepped
    have start : Sound (requests, 0).1 := sound
    exact start.announce announced
  | take source now limit =>
    cases stepped
    exact Sound.mark ((sound.expire now).filter _) source now limit _
  | complete _ _ =>
    cases stepped
    rw [completeTransactionRequest]
    split
    · exact (sound.keeps (completeFirst_keeps ..) sound.exclusive).filter _
    · exact sound
  | forget _ =>
    cases stepped
    exact sound.filter _
  | disconnect _ =>
    cases stepped
    exact (sound.filter _).filter _
  | confirm transactions =>
    cases stepped
    exact sound.forget transactions

theorem Sound.run {after : Queue}
    {events : List RequestEvent} (ran : events.foldlM Queue.step requests = some after) : Sound after := by
  induction events generalizing requests with
  | nil =>
    cases ran
    exact sound
  | cons _ _ ih =>
    obtain ⟨_, first, later⟩ := Option.bind_eq_some_iff.mp ran
    exact ih (sound.step first) later

end

end Queue

end Rbtc.Node.TransactionRequest
