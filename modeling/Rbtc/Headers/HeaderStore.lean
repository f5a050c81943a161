import Rbtc.Foundation.Words
import Rbtc.Headers.Context

/-! The persistent header store: the order in which a DAG accepted its headers determines it, and a restart that
replays it loads the DAG that is live. -/

namespace Rbtc.Headers

open Foundation Bitcoin

section
open HeaderDag List Table

theorem argmax_filter {α : Type} {weight : α → Nat} {keep : α → Bool} {items : List α} {first : α}
    (isFirst : items.argmax weight = some first) (kept : keep first = true) :
    (items.filter keep).argmax weight = some first := by
  induction items using reverseRecOn generalizing first with
  | nil => cases isFirst
  | append_singleton rest item ih =>
    rw [argmax_concat] at isFirst
    rw [filter_append]
    cases earlier : rest.argmax weight with
    | none =>
      obtain rfl := argmax_eq_none.mp earlier
      cases isFirst
      simp [kept]
    | some _ =>
      simp only [earlier] at isFirst
      split at isFirst
      · next lighter =>
        -- The new entry exceeds whatever is left of the others.
        cases isFirst
        rw [filter_singleton, kept, cond_true, argmax_concat]
        cases left : (rest.filter keep).argmax weight with
        | none => rfl
        | some _ =>
          have listed := mem_of_mem_filter (argmax_mem left)
          have below := le_of_mem_argmax listed earlier
          exact if_pos (below.trans_lt lighter)
      · next heavier =>
        cases isFirst
        rw [filter_singleton]
        cases keep item with
        | false => rw [cond_false, append_nil, ih earlier kept]
        | true =>
          rw [cond_true, argmax_concat, ih earlier kept]
          exact if_neg heavier

/-- A header the DAG accepted when it held the headers in front of it, one of them its parent. -/
structure Witnessed (crate : HeaderCrate) (deployments : DeploymentConfig) (latest : Nat)
    (front : List HeaderInfo) (info : HeaderInfo) : Prop where
  accepted : ∃ (dag : HeaderDag) (adjustedTime : Nat) (next : HeaderDag), dag.Valid crate ∧
    dag.deployments = deployments ∧ adjustedTime ≤ latest ∧
    (∀ earlier ∈ front, dag.headers.lookup earlier.hash = some earlier) ∧
    dag.insertContextual crate info.header adjustedTime = .ok (next, info)
  parent : ∃ parent ∈ genesisInfo crate deployments.network :: front, parent.hash = info.header.prevBlockhash

/-- The DAG holds genesis and the headers of the log; its tip is the first of the heaviest. -/
structure Logged (crate : HeaderCrate) (deployments : DeploymentConfig) (latest : Nat)
    (log : List HeaderInfo) (dag : HeaderDag) : Prop where
  valid : dag.Valid crate
  deployments_eq : dag.deployments = deployments
  retained : ∀ info, dag.headers.lookup info.hash = some info ↔ info ∈ genesisInfo crate deployments.network :: log
  nodup : ((genesisInfo crate deployments.network :: log).map HeaderInfo.hash).Nodup
  first : ∃ tip, (genesisInfo crate deployments.network :: log).argmax HeaderInfo.chainwork = some tip ∧
    tip.hash = dag.activeTip
  witnessed : ∀ front info back, log = front ++ info :: back → Witnessed crate deployments latest front info

def InTime (adjustedTime : Nat) (header : Header) : Prop :=
  header.time ≤ saturatingAdd 32 adjustedTime maxFutureBlockTimeSecs

theorem InTime.later {adjustedTime later : Nat} {header : Header} (inTime : InTime adjustedTime header)
    (after : adjustedTime ≤ later) : InTime later header := by
  unfold InTime saturatingAdd saturate at *
  omega

variable {crate : HeaderCrate} {dag : HeaderDag} {adjustedTime : Nat}

namespace HeaderDag

variable {header : Header} {result : HeaderDag × HeaderInfo}

theorem insertContextual_inTime
    (accepted : dag.insertContextual crate header adjustedTime = .ok result) : InTime adjustedTime header := by
  obtain ⟨checked, -⟩ := insertContextual_eq_ok.mp accepted
  simp only [validateContext, bind_eq_ok, ensure_eq_ok] at checked
  obtain ⟨_, _, _, _, _, _, _, _, _, _, _, _, _, _, _, _, _, isSoon, _⟩ := checked
  exact isSoon

theorem insertContextual_retimed {later : Nat} (inTime : InTime later header)
    (accepted : dag.insertContextual crate header adjustedTime = .ok result) :
    dag.insertContextual crate header later = .ok result := by
  obtain ⟨checked, inserted⟩ := insertContextual_eq_ok.mp accepted
  refine insertContextual_eq_ok.mpr ⟨?_, inserted⟩
  simp only [validateContext, bind_eq_ok, ensure_eq_ok] at checked ⊢
  obtain ⟨fresh, isFresh, parent, isParent, height, isHeight, fork, isFork, version, isVersion, median,
    isMedian, past, isPast, boundary, isBoundary, soon, _, rest⟩ := checked
  exact ⟨fresh, isFresh, parent, isParent, height, isHeight, fork, isFork, version, isVersion, median,
    isMedian, past, isPast, boundary, isBoundary, soon, inTime, rest⟩

end HeaderDag

namespace Logged

variable {deployments : DeploymentConfig} {latest : Nat} {log : List HeaderInfo}

theorem start (crate : HeaderCrate) (deployments : DeploymentConfig) (latest : Nat) :
    Logged crate deployments latest [] (.withDeployments crate deployments) := by
  have valid := valid_withDeployments crate deployments
  refine ⟨valid, rfl, fun info => ?_, nodup_singleton _, ⟨_, rfl, rfl⟩, fun front info back split => ?_⟩
  · rw [mem_singleton]
    constructor
    · intro found
      simp only [withDeployments, Table.lookup_singleton] at found
      split at found
      · exact (Option.some.inj found).symm
      · cases found
    · rintro rfl
      exact valid.rooted.root
  · cases front <;> cases split

theorem later {later : Nat} (logged : Logged crate deployments latest log dag) (after : latest ≤ later) :
    Logged crate deployments later log dag := by
  refine ⟨logged.valid, logged.deployments_eq, logged.retained, logged.nodup, logged.first,
    fun front info back split => ?_⟩
  obtain ⟨⟨past, adjustedTime, next, valid, same, inTime, known, accepted⟩, parent⟩ :=
    logged.witnessed front info back split
  exact ⟨⟨past, adjustedTime, next, valid, same, inTime.trans after, known, accepted⟩, parent⟩

variable {info : HeaderInfo} {now : Nat} {hash : BlockHash}

section
variable (logged : Logged crate deployments latest log dag)
include logged

theorem inTime (after : latest ≤ now) : ∀ info ∈ log, InTime now info.header := by
  intro info member
  obtain ⟨front, back, split⟩ := append_of_mem member
  obtain ⟨⟨_, _, _, -, -, before, -, accepted⟩, -⟩ := logged.witnessed front info back split
  exact (insertContextual_inTime accepted).later (before.trans after)

theorem lookup_eq_some : dag.headers.lookup hash = some info ↔
      info ∈ genesisInfo crate deployments.network :: log ∧ info.hash = hash := by
  constructor
  · intro found
    obtain ⟨rfl, -⟩ := logged.valid.rooted.keyed _ _ found
    exact ⟨(logged.retained info).mp found, rfl⟩
  · rintro ⟨member, rfl⟩
    exact (logged.retained info).mpr member

theorem unique {latest' : Nat} {dag' : HeaderDag} (logged' : Logged crate deployments latest' log dag') :
    dag'.headers = dag.headers ∧ dag'.activeTip = dag.activeTip ∧ dag'.activeChain = dag.activeChain := by
  have headers : dag'.headers = dag.headers := by
    ext hash info : 2
    rw [logged.lookup_eq_some, logged'.lookup_eq_some]
  obtain ⟨tip, isFirst, isTip⟩ := logged.first
  obtain ⟨_, isFirst', isTip'⟩ := logged'.first
  obtain rfl := Option.mem_unique isFirst isFirst'
  have sameTip : dag'.activeTip = dag.activeTip := isTip'.symm.trans isTip
  have active' := logged'.valid.active
  rw [headers] at active'
  exact ⟨headers, sameTip, active'.unique logged.valid.active logged'.valid.tip (sameTip ▸ logged.valid.tip)⟩

theorem concat {header : Header} {next : HeaderDag} (inTime : adjustedTime ≤ latest)
    (accepted : dag.insertContextual crate header adjustedTime = .ok (next, info)) :
    Logged crate deployments latest (log ++ [info]) next ∧ info.header = header ∧
      crate.blockHash header = info.hash := by
  obtain ⟨-, inserted⟩ := insertContextual_eq_ok.mp accepted
  obtain ⟨rfl, ⟨parent, acceptable⟩, retains⟩ := insert_retains logged.valid inserted
  have apart : ∀ other ∈ genesisInfo crate deployments.network :: log, other.hash ≠ info.hash := by
    intro other member same
    have found := (logged.retained other).mpr member
    rw [same, acceptable.fresh] at found
    cases found
  refine ⟨⟨retains.valid, retains.deployments_eq.trans logged.deployments_eq, fun other => ?_, ?_, ?_, ?_⟩,
    rfl, acceptable.hashed⟩
  · rw [retains.headers_eq, lookup_insert, ← cons_append, mem_append, ← logged.retained other]
    split
    · next same =>
      rw [same, acceptable.fresh]
      simp [eq_comm]
    · next different =>
      have distinct : other ≠ info := fun same => different (same ▸ rfl)
      simp [distinct]
  · rw [← cons_append, map_append, nodup_append]
    refine ⟨logged.nodup, nodup_singleton _, fun hash member last isLast => ?_⟩
    obtain ⟨other, isOther, rfl⟩ := mem_map.mp member
    rw [mem_singleton.mp isLast]
    exact apart other isOther
  · obtain ⟨tip, isFirst, isTip⟩ := logged.first
    have tipFound : dag.headers.lookup dag.activeTip = some tip :=
      isTip ▸ (logged.retained tip).mpr (argmax_mem isFirst)
    rw [← cons_append, argmax_concat, isFirst]
    dsimp only
    split
    · next heavier => exact ⟨info, rfl, (retains.heavier tip tipFound heavier).1.symm⟩
    · next lighter =>
      exact ⟨tip, rfl, isTip.trans (retains.lighter tip tipFound (Nat.not_lt.mp lighter)).1.symm⟩
  · intro front other back split
    rcases eq_nil_or_concat back with rfl | ⟨rest, _, rfl⟩
    · obtain ⟨rfl, same⟩ := append_inj' split rfl
      obtain rfl : info = other := by simpa using same
      have parentFound := acceptable.parent_found
      have isParent := (logged.valid.rooted.keyed _ _ parentFound).1
      refine ⟨⟨dag, adjustedTime, next, logged.valid, logged.deployments_eq, inTime, fun earlier member => ?_,
        accepted⟩, parent, (logged.lookup_eq_some.mp parentFound).1, isParent⟩
      exact (logged.retained earlier).mpr (.tail _ member)
    · rw [concat_eq_append, ← cons_append, ← append_assoc] at split
      obtain ⟨isLog, -⟩ := append_inj' split rfl
      exact logged.witnessed front other rest isLog

theorem erase (found : dag.headers.lookup hash = some info) (valid : (dag.removeRetainedHeader hash).Valid crate) :
    Logged crate deployments latest (log.filter fun entry => entry.hash ≠ hash) (dag.removeRetainedHeader hash) := by
  have removed : dag.removeRetainedHeader hash = { dag with
      headers := dag.headers.erase hash
      childCounts := dag.childCounts.map fun counts => counts.decrement info.header.prevBlockhash } := by
    simp [removeRetainedHeader, found]
  have deploymentsEq : (dag.removeRetainedHeader hash).deployments = deployments := by
    rw [removed]
    exact logged.deployments_eq
  have present : ∀ {other : BlockHash} {entry : HeaderInfo},
      (dag.removeRetainedHeader hash).headers.lookup other = some entry → other ≠ hash := by
    intro other entry known same
    rw [removeRetainedHeader_headers, same, lookup_erase_self] at known
    cases known
  have root := valid.rooted.root
  rw [deploymentsEq] at root
  have genesisKept : decide ((genesisInfo crate deployments.network).hash ≠ hash) = true :=
    decide_eq_true (present root)
  have filtered : genesisInfo crate deployments.network :: log.filter (fun entry => entry.hash ≠ hash) =
      (genesisInfo crate deployments.network :: log).filter fun entry => entry.hash ≠ hash := by
    rw [filter_cons, if_pos genesisKept]
  have retained : ∀ entry, (dag.removeRetainedHeader hash).headers.lookup entry.hash = some entry ↔
      entry ∈ genesisInfo crate deployments.network :: log.filter fun entry => entry.hash ≠ hash := by
    intro entry
    rw [filtered, mem_filter, ← logged.retained entry, removeRetainedHeader_headers, lookup_erase]
    by_cases same : entry.hash = hash <;> simp [same]
  refine ⟨valid, deploymentsEq, retained, ?_, ?_, fun front entry back split => ?_⟩
  · rw [filtered]
    exact logged.nodup.sublist (filter_sublist.map _)
  · obtain ⟨tip, isFirst, isTip⟩ := logged.first
    obtain ⟨_, tipFound, -⟩ := valid.tip_retained
    have tipKept := present tipFound
    have sameTip : (dag.removeRetainedHeader hash).activeTip = dag.activeTip := by rw [removed]
    rw [sameTip, ← isTip] at tipKept
    exact ⟨tip, by rw [filtered]; exact argmax_filter isFirst (decide_eq_true tipKept), isTip.trans sameTip.symm⟩
  · obtain ⟨first, _, isLog, rfl, isSecond⟩ := filter_eq_append_iff.mp split
    obtain ⟨dropped, rest, rfl, isDropped, kept, -⟩ := filter_eq_cons_iff.mp isSecond
    have front : (first ++ dropped).filter (fun entry => entry.hash ≠ hash) =
        first.filter fun entry => entry.hash ≠ hash := by
      rw [filter_append, filter_eq_nil_iff.mpr isDropped, append_nil]
    obtain ⟨⟨past, adjustedTime, next, pastValid, same, inTime, known, accepted⟩, parent, isParent, linked⟩ :=
      logged.witnessed (first ++ dropped) entry rest (by rw [isLog, append_assoc])
    refine ⟨⟨past, adjustedTime, next, pastValid, same, inTime, fun earlier member => ?_, accepted⟩, parent, ?_, linked⟩
    · exact known earlier (mem_append_left _ (mem_of_mem_filter member))
    -- The parent of a header that is left is left as well.
    have member : entry ∈ log := by simp [isLog]
    have above : entry.hash ≠ (genesisInfo crate deployments.network).hash := fun isGenesis =>
      (nodup_cons.mp logged.nodup).1 (isGenesis ▸ mem_map_of_mem member)
    have stays := (retained entry).mpr (.tail _ (mem_filter.mpr ⟨member, kept⟩))
    obtain ⟨_, parentStays, -⟩ := valid.rooted.linked _ _ stays (deploymentsEq ▸ above)
    have parentKept := present parentStays
    rw [← linked] at parentKept
    rcases mem_cons.mp isParent with rfl | inFront
    · exact mem_cons_self
    · rw [← front]
      exact .tail _ (mem_filter.mpr ⟨inFront, decide_eq_true parentKept⟩)

end

theorem accepted_again (collisionFree : CollisionFree crate)
    (logged : Logged crate deployments latest log dag) {front back : List HeaderInfo}
    (split : log = front ++ info :: back) {replayed : HeaderDag}
    (replays : Logged crate deployments now front replayed) (inTime : InTime now info.header) :
    ∃ next, replayed.insertContextual crate info.header now = .ok (next, info) := by
  obtain ⟨⟨past, _, _, pastValid, same, -, known, accepted⟩, parent, isParent, linked⟩ :=
    logged.witnessed front info back split
  have knownToPast : ∀ entry ∈ genesisInfo crate deployments.network :: front,
      past.headers.lookup entry.hash = some entry := by
    intro entry member
    rcases mem_cons.mp member with rfl | inFront
    · exact same ▸ pastValid.rooted.root
    · exact known entry inFront
  have parentFound := (replays.retained parent).mpr isParent
  rw [linked] at parentFound
  obtain ⟨-, inserted⟩ := insertContextual_eq_ok.mp accepted
  obtain ⟨-, ⟨_, acceptable⟩, -⟩ := insert_retains pastValid inserted
  have fresh : replayed.headers.lookup (crate.blockHash info.header) = none := by
    rw [acceptable.hashed]
    cases present : replayed.headers.lookup info.hash with
    | none => rfl
    | some _ =>
      obtain ⟨member, sameHash⟩ := replays.lookup_eq_some.mp present
      have nodup := logged.nodup
      rw [split, ← cons_append, map_append, nodup_append] at nodup
      exact absurd sameHash (nodup.2.2 _ (mem_map_of_mem member) _ mem_cons_self)
  have sameDeployments : replayed.deployments = past.deployments := replays.deployments_eq.trans same.symm
  have sameNetwork := pastValid.params_eq_of replays.valid sameDeployments
  have unhindered : replayed.validateForkHeight (parent.height + 1) = .ok () := by
    have wasUnhindered := validateForkHeight_of_accepted accepted (linked ▸ knownToPast parent isParent)
    rw [validateForkHeight_eq_ok] at wasUnhindered ⊢
    rw [sameNetwork]
    intro checkpointHeight listed hash pinned retained
    obtain ⟨entry, found⟩ := mem_iff.mp retained
    obtain ⟨member, rfl⟩ := replays.lookup_eq_some.mp found
    exact wasUnhindered checkpointHeight listed _ pinned (mem_of_lookup (knownToPast entry member))
  obtain ⟨next, acceptedAgain, -⟩ := insertContextual_local collisionFree pastValid replays.valid
    sameDeployments accepted parentFound fresh unhindered
  exact ⟨next, insertContextual_retimed inTime acceptedAgain⟩

theorem insertEach (logged : Logged crate deployments latest log dag) {headers : List Header}
    (inTime : adjustedTime ≤ latest) {accepted : List HeaderInfo} {result : HeaderDag × List HeaderInfo}
    (inserted : foldOutcome (insertNextContextual crate adjustedTime) (dag, accepted) headers =
      .ok result) : ∃ infos, result.2 = accepted ++ infos ∧ infos.map HeaderInfo.header = headers ∧
      (∀ info ∈ infos, crate.blockHash info.header = info.hash) ∧
      Logged crate deployments latest (log ++ infos) result.1 := by
  induction headers generalizing dag log accepted with
  | nil =>
    cases inserted
    exact ⟨[], by simp, rfl, by simp, by simpa using logged⟩
  | cons _ _ ih =>
    simp only [foldOutcome_cons, insertNextContextual, bind_eq_ok, pure_eq_ok] at inserted
    obtain ⟨_, ⟨⟨_, info⟩, isNext, rfl⟩, remaining⟩ := inserted
    obtain ⟨nextLogged, isHeader, hashed⟩ := logged.concat inTime isNext
    obtain ⟨infos, isAccepted, isHeaders, allHashed, finalLogged⟩ := ih nextLogged remaining
    refine ⟨info :: infos, by simp [isAccepted], by simp [isHeader, isHeaders], ?_, ?_⟩
    · rw [forall_mem_cons]
      exact ⟨isHeader ▸ hashed, allHashed⟩
    · simpa using finalLogged

theorem indexChildren (logged : Logged crate deployments latest log dag) (hashes : List BlockHash) :
    Logged crate deployments latest log (dag.indexChildren hashes) := by
  have valid := logged.valid.indexChildren hashes
  obtain ⟨_, same⟩ := @indexChildren_eq dag hashes
  rw [same] at valid ⊢
  exact ⟨valid, logged.deployments_eq, logged.retained, logged.nodup, logged.first, logged.witnessed⟩

theorem evictLoop {stage final : StagedHeaderEviction} {pinnedTips hashes : List BlockHash}
    (logged : Logged crate deployments latest log stage.dag) (indexed : hashes ≠ [] → stage.dag.childCounts ≠ none)
    (evicted : foldOutcome (stageEviction pinnedTips) stage hashes = .ok final) :
    ∃ infos, final.removed = stage.removed ++ infos ∧ Logged crate deployments latest
        (infos.foldl (fun log info => log.filter fun entry => entry.hash ≠ info.hash) log) final.dag := by
  induction hashes generalizing stage log with
  | nil =>
    cases evicted
    exact ⟨[], by simp, logged⟩
  | cons hash rest ih =>
    have present := indexed (cons_ne_nil hash rest)
    simp only [foldOutcome_cons, bind_eq_ok, stageEviction_eq_ok logged.valid present] at evicted
    obtain ⟨_, ⟨info, found, free, rfl⟩, remaining⟩ := evicted
    have valid := logged.valid.removeLeaf found free.1.1 free.2
    have isHash := (logged.valid.rooted.keyed _ _ found).1
    obtain ⟨infos, isRemoved, finalLogged⟩ := ih (logged.erase found valid) (fun _ => by
      simpa [removeRetainedHeader, found] using present)
      remaining
    refine ⟨info :: infos, by simp [isRemoved], ?_⟩
    rw [foldl_cons, isHash]
    exact finalLogged

end Logged

end

inductive HeaderStoreError where
  | database
  | malformed (detail : String)
  | duplicate (hash : BlockHash)
  | header (error : HeaderError)
  | resourceDeferred (retained limit : Nat)
  deriving DecidableEq, Repr

/-- The tables of the database. Stored headers stand for their encodings. -/
@[ext] structure RedbHeaderStore where
  headers : Table BlockHash Header
  insertionOrder : Table Nat BlockHash
  hashSequence : Table BlockHash Nat
  nextSequence : Nat

namespace RedbHeaderStore

def malformed {α : Type} (detail : String) (value : Option α) : Outcome HeaderStoreError α :=
  require value (.refused (.malformed detail))

def empty : RedbHeaderStore :=
  { headers := ∅, insertionOrder := ∅, hashSequence := ∅, nextSequence := 0 }

section
variable (crate : HeaderCrate)

def appendRow (store : RedbHeaderStore) (header : Header) : Outcome HeaderStoreError RedbHeaderStore := do
  let hash := crate.blockHash header
  ensure (hash ∉ store.headers) (.refused (.duplicate hash))
  let next ← checked (.malformed "header sequence overflow") (store.nextSequence + 1)
  return {
    headers := store.headers.insert hash header
    insertionOrder := store.insertionOrder.insert store.nextSequence hash
    hashSequence := store.hashSequence.insert hash store.nextSequence
    nextSequence := next }

def appendBatch (store : RedbHeaderStore) (batch : List Header) :
    Outcome HeaderStoreError RedbHeaderStore :=
  foldOutcome (appendRow crate) store batch

end

/-- A reverse index that an older version left incomplete is filled from the insertion order. -/
def fillHashSequence (store : RedbHeaderStore) : RedbHeaderStore :=
  if store.hashSequence.keys.card ≠ store.insertionOrder.keys.card then
    { store with
      hashSequence := store.hashSequence.insertAll
        ((sortedEntries store.insertionOrder).map fun row => (row.2, row.1)) }
  else store

def evictRow (store : RedbHeaderStore) (info : HeaderInfo) : Outcome HeaderStoreError RedbHeaderStore := do
  let sequence ← malformed "evicted header lacks sequence" (store.hashSequence.lookup info.hash)
  let stored ← malformed "evicted header missing" (store.headers.lookup info.hash)
  ensure (stored = info.header) (.refused (.malformed "evicted header differs from DAG"))
  let ordered ← malformed "evicted header lacks ordered row" (store.insertionOrder.lookup sequence)
  ensure (ordered = info.hash) (.refused (.malformed "evicted header order mismatch"))
  return { store with
    headers := store.headers.erase info.hash
    insertionOrder := store.insertionOrder.erase sequence
    hashSequence := store.hashSequence.erase info.hash }

def persistEviction (store : RedbHeaderStore) (evicted : List HeaderInfo) :
    Outcome HeaderStoreError RedbHeaderStore :=
  if evicted = [] then .ok store else foldOutcome evictRow store.fillHashSequence evicted

variable (crate : HeaderCrate) (store : RedbHeaderStore)

def storeFault : Fault HeaderError → Fault HeaderStoreError
  | .refused error => .refused (.header error)
  | .panicked => .panicked

def replayRow (adjustedTime : Nat) (dag : HeaderDag) (row : Nat × BlockHash) :
    Outcome HeaderStoreError HeaderDag := do
  let header ← malformed "ordered header missing" (store.headers.lookup row.2)
  ensure (crate.blockHash header = row.2) (.refused (.malformed "header hash mismatch"))
  let (next, _) ← (dag.insertContextual crate header adjustedTime).mapError storeFault
  return next

def loadDagWithLimit (deployments : DeploymentConfig) (adjustedTime maxHeaders : Nat) :
    Outcome HeaderStoreError HeaderDag := do
  let retained := store.headers.keys.card
  ensure (store.insertionOrder.keys.card = retained) (.refused (.malformed "header and insertion counts differ"))
  ensure (retained ≤ maxHeaders) (.refused (.resourceDeferred retained maxHeaders))
  foldOutcome (store.replayRow crate adjustedTime) (.withDeployments crate deployments)
    (sortedEntries store.insertionOrder)

def loadDag (deployments : DeploymentConfig) (adjustedTime : Nat) : Outcome HeaderStoreError HeaderDag :=
  store.loadDagWithLimit crate deployments adjustedTime (2 ^ 64 - 1)

end RedbHeaderStore

structure PersistedHeaders where
  dag : HeaderDag
  store : RedbHeaderStore

/-- A staged change is committed in memory exactly when its database transaction was. -/
inductive HeaderStoreCall where
  | append (batch : List Header) (adjustedTime : Nat) (writes : Bool)
  | evict (hashes pinnedTips : List BlockHash) (maxEntries : Nat) (writes : Bool)
  | reopen (adjustedTime : Nat)
  deriving DecidableEq, Repr

namespace PersistedHeaders

def transact (writes : Bool) (result : Outcome HeaderStoreError RedbHeaderStore) :
    Outcome HeaderStoreError RedbHeaderStore :=
  if writes then result else refuse .database

variable (crate : HeaderCrate)

def start (deployments : DeploymentConfig) : PersistedHeaders :=
  { dag := .withDeployments crate deployments, store := .empty }

variable (state : PersistedHeaders)

def append (batch : List Header) (adjustedTime : Nat) (writes : Bool) :
    Outcome HeaderStoreError PersistedHeaders :=
  match state.dag.stageBatchContextual crate batch adjustedTime with
  | .staged staged =>
    match transact writes (state.store.appendBatch crate batch) with
    | .ok store => .ok { dag := staged.commit.1, store }
    | .error _ => do
        let dag ← staged.rollback.mapError RedbHeaderStore.storeFault
        return { state with dag }
  | .refused _ dag => .ok { state with dag }
  | .panicked => .error .panicked

def evict (hashes pinnedTips : List BlockHash) (maxEntries : Nat) (writes : Bool) :
    Outcome HeaderStoreError PersistedHeaders :=
  match state.dag.stageLeafEvictions hashes pinnedTips maxEntries with
  | .staged stage =>
    match transact writes (state.store.persistEviction stage.removed) with
    | .ok store => .ok { dag := stage.commit, store }
    | .error _ => .ok { state with dag := stage.restore }
  | .refused _ dag => .ok { state with dag }
  | .panicked => .error .panicked

def perform : HeaderStoreCall → Outcome HeaderStoreError PersistedHeaders
  | .append batch adjustedTime writes => state.append crate batch adjustedTime writes
  | .evict hashes pinnedTips maxEntries writes => state.evict hashes pinnedTips maxEntries writes
  | .reopen adjustedTime => do
      let dag ← state.store.loadDag crate state.dag.deployments adjustedTime
      return { state with dag }

def run (calls : List HeaderStoreCall) : Outcome HeaderStoreError PersistedHeaders :=
  foldOutcome (fun current call => current.perform crate call) state calls

end PersistedHeaders

/-- Every reopen, and the load at the end, has an adjusted time no earlier than the batches before. -/
def HeaderStoreCall.ClockOrdered : Nat → List HeaderStoreCall → Nat → Prop
  | latest, [], now => latest ≤ now
  | latest, .append _ adjustedTime _ :: rest, now => ClockOrdered (max latest adjustedTime) rest now
  | latest, .evict _ _ _ _ :: rest, now => ClockOrdered latest rest now
  | latest, .reopen adjustedTime :: rest, now => latest ≤ adjustedTime ∧ ClockOrdered latest rest now

open Fixture HeaderDag Table List Prod PersistedHeaders

/-- The tables hold one row for each logged header, in the order of the sequence numbers. -/
structure RedbHeaderStore.Records (crate : HeaderCrate) (rows : List (Nat × HeaderInfo))
    (store : RedbHeaderStore) : Prop where
  headers : store.headers = ofList (rows.map fun row => (row.2.hash, row.2.header))
  order : store.insertionOrder = ofList (rows.map fun row => (row.1, row.2.hash))
  reverse : store.hashSequence = ofList (rows.map fun row => (row.2.hash, row.1))
  sorted : KeySorted rows
  below : ∀ row ∈ rows, row.1 < store.nextSequence
  fits : store.nextSequence < 2 ^ 64
  distinct : (rows.map fun row => row.2.hash).Nodup
  hashed : ∀ row ∈ rows, crate.blockHash row.2.header = row.2.hash

namespace RedbHeaderStore.Records

variable {crate : HeaderCrate} {rows : List (Nat × HeaderInfo)} {store : RedbHeaderStore}

theorem empty (crate : HeaderCrate) : RedbHeaderStore.empty.Records crate [] :=
  ⟨rfl, rfl, rfl, .nil, by simp, by decide, nodup_nil, by simp⟩

private theorem map_fst_rows {κ ν : Type} (key : Nat × HeaderInfo → κ) (value : Nat × HeaderInfo → ν) :
    (rows.map fun row => (key row, value row)).map Prod.fst = rows.map key := by
  rw [List.map_map]
  rfl

variable {next : RedbHeaderStore} {info : HeaderInfo} {infos : List HeaderInfo} {first second row : Nat × HeaderInfo}
    {deployments : DeploymentConfig} {latest now : Nat} {dag : HeaderDag} (records : store.Records crate rows)
include records

theorem appendRow (hashed : crate.blockHash info.header = info.hash)
    (appended : store.appendRow crate info.header = .ok next) :
    next.Records crate (rows ++ [(store.nextSequence, info)]) := by
  simp only [RedbHeaderStore.appendRow, bind_eq_ok, ensure_eq_ok, exists_const, checked_eq_ok, pure_eq_ok]
    at appended
  obtain ⟨fresh, _, ⟨fits, rfl⟩, rfl⟩ := appended
  rw [hashed, not_mem_iff, records.headers, lookup_ofList_eq_none, map_fst_rows] at fresh
  have unused : store.nextSequence ∉ rows.map fst := by
    intro member
    obtain ⟨row, isRow, same⟩ := mem_map.mp member
    exact absurd (records.below row isRow) (by rw [same]; exact lt_irrefl _)
  refine ⟨?_, ?_, ?_, ?_, fun row member => ?_, fits, ?_, fun row member => ?_⟩
  · rw [map_append, map_singleton, ofList_concat (by rwa [map_fst_rows]), ← records.headers, hashed]
  · rw [map_append, map_singleton, ofList_concat (by rwa [map_fst_rows]), ← records.order, hashed]
  · rw [map_append, map_singleton, ofList_concat (by rwa [map_fst_rows]), ← records.reverse, hashed]
  · exact records.sorted.concat fun last isLast => records.below last (mem_of_getLast? isLast)
  · rcases mem_append.mp member with earlier | isLast
    · exact (records.below row earlier).trans (Nat.lt_succ_self _)
    · rw [mem_singleton.mp isLast]
      exact Nat.lt_succ_self _
  · rw [map_append, map_singleton]
    exact nodup_append.mpr ⟨records.distinct, nodup_singleton _, fun hash member last isLast same =>
      fresh (by rwa [← mem_singleton.mp isLast, ← same])⟩
  · rcases mem_append.mp member with earlier | isLast
    · exact records.hashed row earlier
    · rw [mem_singleton.mp isLast]
      exact hashed

theorem appendBatch (hashed : ∀ info ∈ infos, crate.blockHash info.header = info.hash)
    (appended : store.appendBatch crate (infos.map HeaderInfo.header) = .ok next) :
    ∃ rows', next.Records crate rows' ∧ rows'.map snd = rows.map snd ++ infos := by
  induction infos generalizing store rows with
  | nil =>
    cases appended
    exact ⟨rows, records, (append_nil _).symm⟩
  | cons _ _ ih =>
    simp only [RedbHeaderStore.appendBatch, map_cons, foldOutcome_cons, bind_eq_ok] at appended
    obtain ⟨_, isMiddle, remaining⟩ := appended
    rw [forall_mem_cons] at hashed
    obtain ⟨rows', records', isLog⟩ := ih (records.appendRow hashed.1 isMiddle) hashed.2 remaining
    exact ⟨rows', records', by rw [isLog]; simp⟩

theorem eq_of_hash
    (isFirst : first ∈ rows) (isSecond : second ∈ rows) (same : first.2.hash = second.2.hash) : first = second := by
  have nodup := records.distinct
  exact inj_on_of_nodup_map nodup isFirst isSecond same

theorem eq_of_sequence
    (isFirst : first ∈ rows) (isSecond : second ∈ rows) (same : first.1 = second.1) : first = second :=
  inj_on_of_nodup_map records.sorted.nodup isFirst isSecond same

theorem evictRow (evicted : store.evictRow info = .ok next) :
    next.Records crate (rows.filter fun row => row.2.hash ≠ info.hash) := by
  simp only [RedbHeaderStore.evictRow, malformed, bind_eq_ok, ensure_eq_ok, exists_const, require_eq_ok,
    pure_eq_ok] at evicted
  obtain ⟨_, isSequence, _, -, -, _, -, -, rfl⟩ := evicted
  rw [records.reverse] at isSequence
  obtain ⟨row, isRow, same⟩ := mem_map.mp (mem_of_lookup_ofList isSequence)
  obtain ⟨isHash, rfl⟩ := Prod.mk.inj same
  have bySequence : rows.filter (fun other => other.2.hash ≠ info.hash) = rows.filter fun other => other.1 ≠ row.1 := by
    refine filter_congr fun other isOther => ?_
    congr 1
    rw [eq_iff_iff, not_iff_not]
    constructor
    · intro sameHash
      rw [records.eq_of_hash isOther isRow (sameHash.trans isHash.symm)]
    · intro sameSequence
      rw [records.eq_of_sequence isOther isRow sameSequence, isHash]
  have sublist : (rows.filter fun other => other.2.hash ≠ info.hash).Sublist rows := filter_sublist
  refine ⟨?_, ?_, ?_, records.sorted.sublist sublist, fun other member => ?_, records.fits,
    records.distinct.sublist (sublist.map _), fun other member => ?_⟩
  · rw [records.headers, ← ofList_filter_ne, filter_map]
    rfl
  · rw [records.order, ← ofList_filter_ne, filter_map, bySequence]
    rfl
  · rw [records.reverse, ← ofList_filter_ne, filter_map]
    rfl
  · exact records.below other (sublist.subset member)
  · exact records.hashed other (sublist.subset member)

theorem fillHashSequence_eq : store.fillHashSequence = store := by
  have complete : store.hashSequence.keys.card = store.insertionOrder.keys.card := by
    rw [records.reverse, records.order, card_keys_ofList (by rw [map_fst_rows]; exact records.distinct),
      card_keys_ofList (by rw [map_fst_rows]; exact records.sorted.nodup), length_map, length_map]
  exact if_neg (not_not.mpr complete)

theorem persistEviction (persisted : store.persistEviction infos = .ok next) : ∃ rows', next.Records crate rows' ∧
      rows'.map snd = infos.foldl (fun log info => log.filter fun entry => entry.hash ≠ info.hash) (rows.map snd) := by
  have folded : foldOutcome RedbHeaderStore.evictRow store infos = .ok next := by
    unfold RedbHeaderStore.persistEviction at persisted
    rw [records.fillHashSequence_eq] at persisted
    split at persisted
    · next none => rw [none]; exact persisted
    · exact persisted
  clear persisted
  induction infos generalizing store rows with
  | nil =>
    cases folded
    exact ⟨rows, records, rfl⟩
  | cons _ _ ih =>
    simp only [foldOutcome_cons, bind_eq_ok] at folded
    obtain ⟨_, isMiddle, remaining⟩ := folded
    obtain ⟨rows', records', isLog⟩ := ih (records.evictRow isMiddle) remaining
    refine ⟨rows', records', isLog.trans ?_⟩
    rw [foldl_cons, filter_map]
    rfl

theorem lookup_header (member : row ∈ rows) : store.headers.lookup row.2.hash = some row.2.header := by
  rw [records.headers]
  exact lookup_ofList_of_mem (by rw [map_fst_rows]; exact records.distinct)
    (mem_map_of_mem member)

theorem lookup_order (member : row ∈ rows) : store.insertionOrder.lookup row.1 = some row.2.hash := by
  rw [records.order]
  exact lookup_ofList_of_mem (by rw [map_fst_rows]; exact records.sorted.nodup)
    (mem_map_of_mem member)

variable (collisionFree : CollisionFree crate) (logged : Logged crate deployments latest (rows.map snd) dag)
  (inTime : ∀ info ∈ rows.map snd, InTime now info.header)
include collisionFree logged inTime

theorem foldOutcome_replayRow
    {front back : List (Nat × HeaderInfo)} (split : rows = front ++ back) {replayed : HeaderDag}
    (replays : Logged crate deployments now (front.map snd) replayed) :
    ∃ final, foldOutcome (store.replayRow crate now) replayed
        (back.map fun row => (row.1, row.2.hash)) = .ok final ∧ Logged crate deployments now (rows.map snd) final := by
  induction back generalizing front replayed with
  | nil =>
    rw [append_nil] at split
    exact ⟨replayed, rfl, split ▸ replays⟩
  | cons row rest ih =>
    have member : row ∈ rows := by simp [split]
    have stored := records.lookup_header member
    have logSplit : rows.map snd = front.map snd ++ row.2 :: rest.map snd := by
      rw [split, map_append, map_cons]
    obtain ⟨next, isNext⟩ := logged.accepted_again collisionFree logSplit replays
      (inTime row.2 (mem_map_of_mem member))
    obtain ⟨nextLogged, -, -⟩ := replays.concat le_rfl isNext
    have stepped : store.replayRow crate now replayed (row.1, row.2.hash) = .ok next := by
      simp only [replayRow, malformed, bind_eq_ok, require_eq_ok, ensure_eq_ok, mapError_eq_ok]
      exact ⟨_, stored, (), records.hashed row member, (next, row.2), isNext, rfl⟩
    obtain ⟨final, isFinal, finalLogged⟩ := @ih (front ++ [row]) (by simp [split]) next
      (by simpa using nextLogged)
    refine ⟨final, ?_, finalLogged⟩
    rw [map_cons, foldOutcome_cons, stepped, ok_bind, isFinal]

theorem loadDag : ∃ loaded, store.loadDag crate deployments now = .ok loaded ∧
      Logged crate deployments now (rows.map snd) loaded := by
  have retained : store.headers.keys.card = rows.length := by
    rw [records.headers, card_keys_ofList (by rw [map_fst_rows]; exact records.distinct), length_map]
  have ordered : store.insertionOrder.keys.card = rows.length := by
    rw [records.order, card_keys_ofList (by rw [map_fst_rows]; exact records.sorted.nodup), length_map]
  have sorted : KeySorted (rows.map fun row => (row.1, row.2.hash)) := by
    rw [KeySorted, pairwise_map]
    exact records.sorted
  have bounded : rows.length ≤ 2 ^ 64 - 1 := by
    have inRange : (rows.map fst).toFinset ⊆ Finset.range store.nextSequence := by
      intro sequence member
      obtain ⟨row, isRow, rfl⟩ := mem_map.mp (mem_toFinset.mp member)
      exact Finset.mem_range.mpr (records.below row isRow)
    have counted := Finset.card_le_card inRange
    rw [toFinset_card_of_nodup records.sorted.nodup, length_map, Finset.card_range] at counted
    have := records.fits
    omega
  obtain ⟨final, isFinal, finalLogged⟩ := records.foldOutcome_replayRow collisionFree logged inTime
    (nil_append rows).symm (Logged.start crate deployments now)
  refine ⟨final, ?_, finalLogged⟩
  rw [RedbHeaderStore.loadDag, loadDagWithLimit, retained, ordered, ensure_of rfl, ensure_of bounded,
    records.order, sorted.sortedEntries_ofList]
  exact isFinal

end RedbHeaderStore.Records

def PersistedHeaders.Faithful (crate : HeaderCrate) (deployments : DeploymentConfig) (latest : Nat)
    (state : PersistedHeaders) : Prop :=
  ∃ rows, state.store.Records crate rows ∧ Logged crate deployments latest (rows.map snd) state.dag

namespace PersistedHeaders

variable {crate : HeaderCrate} {deployments : DeploymentConfig} {latest : Nat} {state : PersistedHeaders}

theorem transact_eq_ok {writes : Bool} {result : Outcome HeaderStoreError RedbHeaderStore}
    {store : RedbHeaderStore} (written : transact writes result = .ok store) : result = .ok store := by
  cases writes with
  | true => exact written
  | false => cases written

theorem append_faithful (faithful : state.Faithful crate deployments latest) (batch : List Header)
    (adjustedTime : Nat) (writes : Bool) : ∃ next, state.append crate batch adjustedTime writes = .ok next ∧
      next.Faithful crate deployments (max latest adjustedTime) := by
  obtain ⟨rows, records, logged⟩ := faithful
  have current := logged.later (le_max_left latest adjustedTime)
  have loop := (StagesFrom.openBatch logged.valid).stageLoop batch adjustedTime
  simp only [append, stageBatchContextual]
  split at loop
  · next final finished =>
    obtain ⟨stages, inserted⟩ := loop
    simp only [finished, stages.rollback logged.valid]
    split
    · next store written =>
      refine ⟨_, rfl, ?_⟩
      obtain ⟨_, -, rfl, hashed, finalLogged⟩ := current.insertEach (le_max_right _ _) inserted
      obtain ⟨rows', records', isLog⟩ := records.appendBatch hashed (transact_eq_ok written)
      exact ⟨rows', records', by rw [isLog]; exact finalLogged⟩
    · exact ⟨_, rfl, rows, records, current⟩
  · next fault final stopped =>
    obtain ⟨stages, -, _, rfl⟩ := loop
    simp only [stopped, stages.rollback logged.valid]
    exact ⟨_, rfl, rows, records, current⟩

theorem evict_faithful (faithful : state.Faithful crate deployments latest)
    (hashes pinnedTips : List BlockHash) (maxEntries : Nat) (writes : Bool) :
    ∃ next, state.evict hashes pinnedTips maxEntries writes = .ok next ∧ next.Faithful crate deployments latest := by
  obtain ⟨rows, records, logged⟩ := faithful
  have indexed := logged.indexChildren hashes
  have spec := logged.valid.stageLeafEvictions hashes pinnedTips maxEntries
  simp only [evict]
  generalize state.dag.stageLeafEvictions hashes pinnedTips maxEntries = result at spec ⊢
  cases result with
  | staged _ =>
    obtain ⟨-, evicts, -, -, -, finished⟩ := spec
    simp only [evicts.restored]
    split
    · next store written =>
      refine ⟨_, rfl, ?_⟩
      obtain ⟨_, isRemoved, finalLogged⟩ := Logged.evictLoop indexed indexChildren_childCounts finished
      rw [isRemoved] at written
      obtain ⟨rows', records', isLog⟩ := records.persistEviction (transact_eq_ok written)
      exact ⟨rows', records', by rw [isLog]; exact finalLogged⟩
    · exact ⟨_, rfl, rows, records, indexed⟩
  | refused _ _ =>
    obtain ⟨-, rfl | rfl⟩ := spec
    · exact ⟨_, rfl, rows, records, logged⟩
    · exact ⟨_, rfl, rows, records, indexed⟩
  | panicked => exact spec.elim

theorem run_faithful (collisionFree : CollisionFree crate)
    (faithful : state.Faithful crate deployments latest) {calls : List HeaderStoreCall} {now : Nat}
    (ordered : HeaderStoreCall.ClockOrdered latest calls now) :
    ∃ final, state.run crate calls = .ok final ∧ ∃ bound, bound ≤ now ∧ final.Faithful crate deployments bound := by
  induction calls generalizing state latest with
  | nil => exact ⟨state, rfl, latest, ordered, faithful⟩
  | cons call _ ih =>
    cases call with
    | append batch adjustedTime writes =>
      obtain ⟨next, performed, nextFaithful⟩ := append_faithful faithful batch adjustedTime writes
      obtain ⟨final, ran, bounded⟩ := ih nextFaithful ordered
      exact ⟨final, bind_eq_ok.mpr ⟨next, performed, ran⟩, bounded⟩
    | evict hashes pinnedTips maxEntries writes =>
      obtain ⟨next, performed, nextFaithful⟩ := evict_faithful faithful hashes pinnedTips maxEntries writes
      obtain ⟨final, ran, bounded⟩ := ih nextFaithful ordered
      exact ⟨final, bind_eq_ok.mpr ⟨next, performed, ran⟩, bounded⟩
    | reopen _ =>
      obtain ⟨inTime, later⟩ := ordered
      obtain ⟨rows, records, logged⟩ := faithful
      obtain ⟨loaded, isLoaded, reloaded⟩ := records.loadDag collisionFree logged (logged.inTime inTime)
      -- The loaded headers are still those accepted before the restart.
      have nextFaithful : Faithful crate deployments latest { state with dag := loaded } :=
        ⟨rows, records, reloaded.valid, reloaded.deployments_eq, reloaded.retained, reloaded.nodup,
          reloaded.first, logged.witnessed⟩
      obtain ⟨final, ran, bounded⟩ := ih nextFaithful later
      refine ⟨final, bind_eq_ok.mpr ⟨_, ?_, ran⟩, bounded⟩
      simp only [perform, logged.deployments_eq, isLoaded]
      rfl

end PersistedHeaders

def HeaderDag.childIndex (dag : HeaderDag) : Table BlockHash Nat :=
  dag.childCounts.getD (buildChildCounts dag.headers)

theorem HeaderDag.Valid.childIndex_eq {crate : HeaderCrate} {dag : HeaderDag} (valid : dag.Valid crate) :
    dag.childIndex = buildChildCounts dag.headers := by
  unfold childIndex
  cases indexed : dag.childCounts with
  | none => rfl
  | some counts => exact (valid.counted counts indexed).unique (buildChildCounts_tallies dag.headers)

/-- After every history of batches, evictions and restarts, the store loads the live DAG. -/
theorem loadDag_restores_live_dag {crate : HeaderCrate} (collisionFree : CollisionFree crate)
    (deployments : DeploymentConfig) (calls : List HeaderStoreCall) (now : Nat)
    (ordered : HeaderStoreCall.ClockOrdered 0 calls now) :
    ∃ state loaded, (start crate deployments).run crate calls = .ok state ∧
      state.store.loadDag crate deployments now = .ok loaded ∧
      loaded.headers = state.dag.headers ∧ loaded.childIndex = state.dag.childIndex ∧
      loaded.activeTip = state.dag.activeTip ∧ loaded.activeChain = state.dag.activeChain := by
  have faithful : (start crate deployments).Faithful crate deployments 0 :=
    ⟨[], .empty crate, Logged.start crate deployments 0⟩
  obtain ⟨state, ran, _, inTime, _, records, logged⟩ := run_faithful collisionFree faithful ordered
  obtain ⟨loaded, isLoaded, reloaded⟩ := records.loadDag collisionFree logged (logged.inTime inTime)
  obtain ⟨headers, tip, chain⟩ := logged.unique reloaded
  refine ⟨state, loaded, ran, isLoaded, headers, ?_, tip, chain⟩
  rw [reloaded.valid.childIndex_eq, logged.valid.childIndex_eq, headers]

/-- Two tips of equal work, the later one evicted, accepted again and reloaded: the first stays the tip. -/
theorem loadDag_restores_first_seen_tip : ∃ state loaded,
    (start crate deployments).run crate [.append [header 3, header 2] 10 true,
          .evict [blockHash (header 2)] [] 1 true, .append [header 2] 10 true, .reopen 11] = .ok state ∧
      state.store.loadDag crate deployments 12 = .ok loaded ∧
      loaded.headers = state.dag.headers ∧ loaded.childIndex = state.dag.childIndex ∧
      loaded.activeTip = state.dag.activeTip ∧ loaded.activeChain = state.dag.activeChain :=
  loadDag_restores_live_dag collisionFree deployments _ 12 (by simp only [HeaderStoreCall.ClockOrdered]; decide)

end Rbtc.Headers
