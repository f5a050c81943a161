import Rbtc.Chainstate.Coins
import Rbtc.Headers.HeaderStore
import Rbtc.Node.HeaderSync

/-! Locally submitted blocks: headers staged, bodies prefetched, verdicts after execution. -/

namespace Rbtc.Node

open Foundation Bitcoin Headers Chainstate PersistedHeaders HeaderDag List Option RedbHeaderStore

inductive Verdict where
  | connected
  | rejected (error : HeaderError)
  /-- Sent as "could not persist the block header: …". -/
  | notPersisted (error : HeaderStoreError)
  /-- Sent as "inconclusive: the header is valid but does not extend the active chain". -/
  | inconclusive
  /-- Sent as "the block was replaced on the active chain before it connected". -/
  | replaced
  deriving DecidableEq, Repr

/-- A submitted block and the channel its verdict returns on. The write of its header may fail. -/
structure PendingBlock where
  block : Block
  channel : Nat
  writes : Bool
  deriving DecidableEq, Repr

structure AwaitingSubmission where
  hash : BlockHash
  height : Nat
  channel : Nat
  deriving DecidableEq, Repr

/-- The serving loop's part in submissions. Prefetched blocks stand for their bytes. -/
structure Intake where
  headers : HeaderDag
  store : RedbHeaderStore
  prefetched : List Block
  awaiting : List AwaitingSubmission
  answers : List (Nat × Verdict)

namespace Intake

section
variable (crate : HeaderCrate) (adjustedTime : Nat) (state : Intake)

def answer (channel : Nat) (verdict : Verdict) : Intake :=
  { state with answers := state.answers ++ [(channel, verdict)] }

/-- A header that was staged and persisted: its body is prefetched if it took the active tip. -/
def keep (pending : PendingBlock) : Outcome HeaderStoreError Intake := do
  let hash := crate.blockHash pending.block.header
  let tip ← state.headers.activeTipInfo.mapError storeFault
  if tip.hash = hash then
    return { state with
      prefetched := state.prefetched ++ [pending.block]
      awaiting := state.awaiting ++ [⟨hash, tip.height, pending.channel⟩] }
  else return state.answer pending.channel .inconclusive

def stageSubmission (pending : PendingBlock) : Outcome HeaderStoreError Intake :=
  match state.headers.stageBatchContextual crate [pending.block.header] adjustedTime with
  | .panicked => .error .panicked
  | .refused error headers => .ok ({ state with headers }.answer pending.channel (.rejected error))
  | .staged staged =>
    match transact pending.writes (state.store.appendBatch crate [pending.block.header]) with
    | .error .panicked => .error .panicked
    | .error (.refused error) => do
        let headers ← staged.rollback.mapError storeFault
        return { state with headers }.answer pending.channel (.notPersisted error)
    | .ok store => keep crate { state with headers := staged.commit.1, store } pending

def stageSubmittedBlocks (submitted : List PendingBlock) : Outcome HeaderStoreError Intake :=
  if state.prefetched = [] then foldOutcome (stageSubmission crate adjustedTime) state submitted else .ok state

end

def settled (headers : HeaderDag) (submission : AwaitingSubmission) : Verdict :=
  if ∃ active ∈ headers.activeHeaderAt submission.height, active.hash = submission.hash then .connected
  else .replaced

def settlements (state : Intake) (executionHeight : Nat) : List (Nat × Verdict) :=
  (state.awaiting.filter fun submission => ¬ executionHeight < submission.height).map fun submission =>
    (submission.channel, settled state.headers submission)

def settleSubmittedBlocks (state : Intake) (executionHeight : Nat) : Intake :=
  { state with
    awaiting := state.awaiting.filter fun submission => executionHeight < submission.height
    answers := state.answers ++ state.settlements executionHeight }

end Intake

inductive BatchRefusal where
  | heightOverflow
  | aboveCeiling (height ceiling : Nat)
  | missingActiveHeader (height : Nat)
  /-- Reported as "prefetched blocks exceed the next active-chain batch". -/
  | prefetchedExceed
  /-- Reported as "prefetched blocks do not match the next active-chain batch". -/
  | prefetchedMismatch
  deriving DecidableEq, Repr

section
variable (crate : HeaderCrate) (headers : HeaderDag) (tip : ExecutionTip) (maximumHeight : Option Nat)
  (maximumBatchSize : Nat)

def nextBatch : Outcome BatchRefusal (List HeaderInfo) := do
  let nextHeight ← require (checkedAdd 32 tip.height 1) (.refused .heightOverflow)
  let active ← headers.activeTipInfo.mapError fun _ => .panicked
  let ceiling := min (maximumHeight.getD active.height) active.height
  ensure (tip.height ≤ ceiling) (.refused (.aboveCeiling tip.height ceiling))
  (range (min (ceiling - tip.height) maximumBatchSize)).mapM fun offset => do
    let height ← require (checkedAdd 32 nextHeight offset) (.refused .heightOverflow)
    require (headers.activeHeaderAt height) (.refused (.missingActiveHeader height))

/-- The most blocks a batch can take: up to its size, and up to the validation target if there is one. -/
def batchRoom : Nat := min (maximumHeight.elim maximumBatchSize (· - tip.height)) maximumBatchSize

def takePrefetched (prefetched : List Block) : Outcome BatchRefusal (List Block) := do
  let expected ← nextBatch headers tip maximumHeight maximumBatchSize
  ensure (prefetched.length ≤ expected.length) (.refused .prefetchedExceed)
  ensure (∀ pair ∈ prefetched.zip expected, crate.blockHash pair.1.header = pair.2.hash)
    (.refused .prefetchedMismatch)
  return prefetched

end

namespace Intake

section
variable (crate : HeaderCrate) (tip : ExecutionTip)

def staged (state : Intake) : List BlockHash :=
  tip.hash :: state.prefetched.map fun block => crate.blockHash block.header

def lastStaged (state : Intake) : BlockHash :=
  (state.prefetched.getLast?.map fun block => crate.blockHash block.header).getD tip.hash

/-- The execution tip and the prefetched blocks are the active chain from the tip's height on. -/
def Aligned (state : Intake) : Prop :=
  ∀ index hash, (state.staged crate tip)[index]? = some hash →
    state.headers.activeChain[tip.height + index]? = some hash

def TakesTip (adjustedTime : Nat) (state : Intake) (pending : PendingBlock) : Prop :=
  (∃ store, transact pending.writes (state.store.appendBatch crate [pending.block.header]) = .ok store) ∧
    ∃ next info old, state.headers.insertContextual crate pending.block.header adjustedTime = .ok (next, info) ∧
      state.headers.headers.lookup state.headers.activeTip = some old ∧ old.chainwork < info.chainwork

/-- Every submission that takes the active tip is a child of the block staged before it, or of the tip, and there
is room for its block. -/
def Orderly (room adjustedTime : Nat) : Intake → List PendingBlock → Prop
  | _, [] => True
  | state, pending :: rest =>
    (state.TakesTip crate adjustedTime pending → pending.block.header.prevBlockhash = state.lastStaged crate tip ∧
      state.prefetched.length < room) ∧
    ∀ next, stageSubmission crate adjustedTime state pending = .ok next → Orderly room adjustedTime next rest

end

variable {crate : HeaderCrate} {adjustedTime : Nat} {tip : ExecutionTip} {state next : Intake}

theorem staged_length : (state.staged crate tip).length = state.prefetched.length + 1 := by
  rw [staged, length_cons, length_map]

theorem staged_last : (state.staged crate tip)[state.prefetched.length]? = some (state.lastStaged crate tip) := by
  have last : (state.staged crate tip).getLast? = some (state.lastStaged crate tip) := by
    unfold staged lastStaged
    rw [getLast?_cons, getLast?_map]
  rw [getLast?_eq_getElem?, staged_length] at last
  exact last

/-- A submission takes the active tip and is prefetched, or leaves chain and prefetched blocks alone. -/
inductive Staged (crate : HeaderCrate) (adjustedTime : Nat) (state : Intake) (pending : PendingBlock)
    (next : Intake) : Prop
  | passed (stays : ¬ state.TakesTip crate adjustedTime pending) (prefetched : next.prefetched = state.prefetched)
      (chain : next.headers.activeChain = state.headers.activeChain)
  | took (takes : state.TakesTip crate adjustedTime pending)
      (prefetched : next.prefetched = state.prefetched ++ [pending.block]) (info : HeaderInfo)
      (header : info.header = pending.block.header)
      (parent : ∃ parent, HeaderDag.Acceptable crate state.headers parent info)
      (retains : HeaderDag.Retains crate state.headers info next.headers)
      (tip : next.headers.activeTip = crate.blockHash pending.block.header)

theorem insertEachContextual_singleton (dag : HeaderDag) (header : Header) :
    dag.insertEachContextual crate [header] adjustedTime =
      (dag.insertContextual crate header adjustedTime).map fun result => (result.1, [result.2]) := by
  rw [insertEachContextual, foldOutcome_singleton, insertNextContextual]
  cases dag.insertContextual crate header adjustedTime <;> rfl

variable {info : HeaderInfo} {pending : PendingBlock}
  {after headers : HeaderDag} {parent : HeaderInfo} {hash : BlockHash} {done : ExecutionTip}

theorem activeTip_eq_iff {dag : HeaderDag} {old : HeaderInfo}
    (acceptable : HeaderDag.Acceptable crate dag parent info) (retains : HeaderDag.Retains crate dag info after)
    (isTip : dag.headers.lookup dag.activeTip = some old) :
    after.activeTip = info.hash ↔ old.chainwork < info.chainwork := by
  refine ⟨fun same => ?_, fun heavier => (retains.heavier old isTip heavier).1⟩
  by_contra lighter
  rw [(retains.lighter old isTip (Nat.not_lt.mp lighter)).1] at same
  rw [same, acceptable.fresh] at isTip
  cases isTip

theorem transact_safe (store : RedbHeaderStore) (pending : PendingBlock) :
    Safe (transact pending.writes (store.appendBatch crate [pending.block.header])) := by
  unfold transact
  split
  · rw [appendBatch, foldOutcome_singleton]
    exact Safe.bind safe_ensure fun _ _ => Safe.bind (safe_checked _ _) fun _ _ => safe_pure _
  · intro panics
    cases panics

theorem staged_of_took (prefetched : next.prefetched = state.prefetched ++ [pending.block]) :
    next.staged crate tip = state.staged crate tip ++ [crate.blockHash pending.block.header] := by
  unfold staged
  rw [prefetched, map_append]
  rfl

theorem Aligned.took (aligned : state.Aligned crate tip) (valid : state.headers.Valid crate)
    (prefetched : next.prefetched = state.prefetched ++ [pending.block]) (header : info.header = pending.block.header)
    (acceptable : HeaderDag.Acceptable crate state.headers parent info)
    (retains : HeaderDag.Retains crate state.headers info next.headers)
    (isTip : next.headers.activeTip = crate.blockHash pending.block.header)
    (follows : pending.block.header.prevBlockhash = state.lastStaged crate tip) : next.Aligned crate tip := by
  have hashed : crate.blockHash pending.block.header = info.hash := header ▸ acceptable.hashed
  have atLast := aligned _ _ staged_last
  have isParent := acceptable.parent_found
  rw [header, follows] at isParent
  have height : info.height = tip.height + state.prefetched.length + 1 := by
    rw [acceptable.admissible.height_eq, valid.active.depth_eq atLast isParent]
  have found : next.headers.headers.lookup info.hash = some info := by
    rw [retains.headers_eq, Table.lookup_insert, if_pos rfl]
  have atTip : next.headers.activeChain[tip.height + state.prefetched.length + 1]? = some info.hash := by
    obtain ⟨_, newFound, length⟩ := retains.valid.tip_retained
    rw [isTip, hashed] at newFound
    cases found.symm.trans newFound
    have last := retains.valid.tip_mem
    rwa [isTip, hashed, length, height] at last
  obtain ⟨_, found', -, before⟩ := retains.valid.active.entry _ _ atTip
  cases found.symm.trans found'
  have atParent := before _ rfl
  rw [header, follows] at atParent
  have lineage : Ancestry next.headers.headers state.headers.activeChain := by
    rw [retains.headers_eq]
    exact acceptable.active valid
  have shared := lineage.take_eq retains.valid.active
    (fun _ _ _ found found' => mem_unique found found') atLast atParent
  intro index hash atIndex
  rw [staged_of_took prefetched] at atIndex
  rcases Nat.lt_trichotomy index (state.staged crate tip).length with inside | last | outside
  · rw [getElem?_append_left inside] at atIndex
    have below : tip.height + index < tip.height + state.prefetched.length + 1 := by
      rw [staged_length] at inside
      omega
    rw [← getElem?_take_of_lt below, ← shared, getElem?_take_of_lt below]
    exact aligned index hash atIndex
  · rw [last, getElem?_concat_length] at atIndex
    rw [last, staged_length, ← atIndex, hashed]
    exact atTip
  · rw [getElem?_eq_none (by simp; omega)] at atIndex
    cases atIndex

def Retained (crate : HeaderCrate) (state : Intake) : Prop :=
  ∀ block ∈ state.prefetched, ∃ info,
    state.headers.headers.lookup (crate.blockHash block.header) = some info ∧ info.header = block.header

/-- Every prefetched block from a position on is a child of the one before it, or of the execution tip. -/
def Linked (crate : HeaderCrate) (tip : ExecutionTip) (start : Nat) (state : Intake) : Prop :=
  ∀ index block, start ≤ index → state.prefetched[index]? = some block →
    (state.staged crate tip)[index]? = some block.header.prevBlockhash

theorem Retained.staged (retained : state.Retained crate)
    (grows : ∀ hash info, state.headers.headers.lookup hash = some info → next.headers.headers.lookup hash = some info)
    (step : Staged crate adjustedTime state pending next) : next.Retained crate := by
  have earlier : ∀ block ∈ state.prefetched, ∃ info,
      next.headers.headers.lookup (crate.blockHash block.header) = some info ∧ info.header = block.header := by
    intro block member
    obtain ⟨info, found, isHeader⟩ := retained block member
    exact ⟨info, grows _ _ found, isHeader⟩
  cases step with
  | passed _ prefetched _ =>
    unfold Retained
    rw [prefetched]
    exact earlier
  | took _ prefetched info header parent retains _ =>
    obtain ⟨_, acceptable⟩ := parent
    intro block member
    rw [prefetched, mem_append, mem_singleton] at member
    rcases member with before | rfl
    · exact earlier block before
    · refine ⟨info, ?_, header⟩
      rw [← header, acceptable.hashed, retains.headers_eq, Table.lookup_insert, if_pos rfl]

variable {maximumHeight : Option Nat} {maximumBatchSize : Nat}

theorem nextBatch_spec {active : HeaderInfo} {expected : List HeaderInfo}
    (isActive : headers.activeTipInfo = .ok active)
    (batch : nextBatch headers tip maximumHeight maximumBatchSize = .ok expected) :
    expected.length = min (min (maximumHeight.getD active.height) active.height - tip.height) maximumBatchSize ∧
      ∀ index info, expected[index]? = some info → headers.activeHeaderAt (tip.height + 1 + index) = some info := by
  simp only [nextBatch, isActive, bind_eq_ok, require_eq_ok, mapError_eq_ok, Except.ok.injEq] at batch
  obtain ⟨_, isNext, _, rfl, _, -, mapped⟩ := batch
  obtain ⟨-, rfl⟩ := checkedAdd_eq_some.mp isNext
  obtain ⟨length, positions⟩ := getElem?_of_mapM mapped
  rw [length_range] at length
  refine ⟨length, fun index info found => ?_⟩
  have inside := (List.getElem_of_getElem? found).1
  have accepted := positions index index info (by rw [getElem?_range (by omega)]) found
  simp only [bind_eq_ok, require_eq_ok] at accepted
  obtain ⟨_, isHeight, isHeader⟩ := accepted
  rwa [← (checkedAdd_eq_some.mp isHeight).2] at isHeader

section
variable (aligned : state.Aligned crate tip) (valid : state.headers.Valid crate)
include aligned valid

theorem Aligned.linked (retained : state.Retained crate) (start : Nat) : state.Linked crate tip start := by
  intro index block _ found
  have atNext : (state.staged crate tip)[index + 1]? = some (crate.blockHash block.header) := by
    rw [staged, getElem?_cons_succ, getElem?_map, found, map_some]
  obtain ⟨_, isInfo, isHeader⟩ := retained block (mem_of_getElem? found)
  obtain ⟨_, isInfo', -, before⟩ := valid.active.entry _ _ (aligned _ _ atNext)
  cases isInfo.symm.trans isInfo'
  have inside : index < (state.staged crate tip).length := by
    rw [staged_length]
    exact Nat.lt_succ_of_lt (List.getElem_of_getElem? found).1
  have atIndex := getElem?_eq_getElem inside
  rw [atIndex, ← aligned _ _ atIndex, before (tip.height + index) rfl, isHeader]

theorem Aligned.length_le {active : HeaderInfo}
    (isActive : state.headers.headers.lookup state.headers.activeTip = some active) :
    tip.height + state.prefetched.length ≤ active.height := by
  obtain ⟨_, found, _⟩ := valid.tip_retained
  cases isActive.symm.trans found
  have inside := (List.getElem_of_getElem? (aligned _ _ staged_last)).1
  omega

theorem Aligned.takePrefetched (fits : state.prefetched.length ≤ batchRoom tip maximumHeight maximumBatchSize) :
    Node.takePrefetched crate state.headers tip maximumHeight maximumBatchSize state.prefetched =
      (nextBatch state.headers tip maximumHeight maximumBatchSize).map fun _ => state.prefetched := by
  unfold Node.takePrefetched
  cases batch : nextBatch state.headers tip maximumHeight maximumBatchSize with
  | error _ => rfl
  | ok expected =>
    obtain ⟨active, isActive, found⟩ := valid.activeTipInfo_eq
    obtain ⟨length, positions⟩ := nextBatch_spec isActive batch
    have reaches := aligned.length_le valid found
    have enough : state.prefetched.length ≤ expected.length := by
      unfold batchRoom at fits
      cases maximumHeight <;> simp only [elim_none, elim_some, getD_none, getD_some] at fits length <;> omega
    rw [ok_bind, ensure_of enough, ensure_of ?_]
    · rfl
    intro pair member
    obtain ⟨index, inside, isPair⟩ := mem_iff_getElem.mp member
    rw [getElem_zip] at isPair
    subst isPair
    rw [length_zip] at inside
    have within : index < state.prefetched.length := by omega
    have isStaged : (state.staged crate tip)[index + 1]? = some (crate.blockHash state.prefetched[index].header) := by
      rw [staged, getElem?_cons_succ, getElem?_map, getElem?_eq_getElem within, map_some]
    obtain ⟨_, isInfo, isHash⟩ := activeHeaderAt_of_active valid (aligned _ _ isStaged)
    have isHeader := positions index _ (getElem?_eq_getElem (by omega))
    rw [Nat.add_assoc, Nat.add_comm 1 index, isInfo] at isHeader
    rw [← isHash, some.inj isHeader]

/-- With blocks staged above the execution tip the next batch is refused only for these blocks. -/
theorem Aligned.nextBatch_eq_ok (target : ∀ maximum ∈ maximumHeight, tip.height ≤ maximum)
    (some : state.prefetched ≠ []) :
    ∃ expected, nextBatch state.headers tip maximumHeight maximumBatchSize = .ok expected := by
  obtain ⟨active, isActive, found⟩ := valid.activeTipInfo_eq
  have reaches := aligned.length_le valid found
  have positive := length_pos_iff.mpr some
  obtain ⟨_, -, admissible⟩ := valid.rooted.parent_of_pos found (by omega)
  have fits := admissible.fits
  have ceiling : tip.height ≤ min (maximumHeight.getD active.height) active.height := by
    cases maximumHeight with
    | none => simp only [getD_none]; omega
    | some maximum =>
      have := target maximum rfl
      simp only [getD_some]
      omega
  obtain ⟨expected, mapped⟩ : ∃ expected,
    (range (min (min (maximumHeight.getD active.height) active.height - tip.height)
      maximumBatchSize)).mapM (fun offset => do
        let height ← require (checkedAdd 32 (tip.height + 1) offset) (.refused .heightOverflow)
        require (state.headers.activeHeaderAt height) (.refused (.missingActiveHeader height))) =
      (.ok expected : Outcome BatchRefusal _) := by
    refine mapM_eq_ok.mpr fun offset member => ?_
    have inside := mem_range.mp member
    have height : tip.height + 1 + offset ≤ active.height := by omega
    obtain ⟨_, tipFound, length⟩ := valid.tip_retained
    cases found.symm.trans tipFound
    obtain ⟨_, isInfo, -⟩ := activeHeaderAt_of_active valid
      (getElem?_eq_getElem (show tip.height + 1 + offset < state.headers.activeChain.length by omega))
    simp only [bind_eq_ok, require_eq_ok, checkedAdd_eq_some]
    exact ⟨_, _, ⟨by omega, rfl⟩, isInfo⟩
  refine ⟨expected, ?_⟩
  simp only [nextBatch, isActive, bind_eq_ok, require_eq_ok, ensure_eq_ok, checkedAdd_eq_some, mapError_eq_ok]
  exact ⟨_, ⟨by omega, rfl⟩, active, rfl, (), ceiling, mapped⟩

theorem Aligned.fits (target : ∀ maximum ∈ maximumHeight, tip.height ≤ maximum)
    (starts : Node.takePrefetched crate state.headers tip maximumHeight maximumBatchSize state.prefetched =
      (nextBatch state.headers tip maximumHeight maximumBatchSize).map fun _ => state.prefetched) :
    state.prefetched.length ≤ batchRoom tip maximumHeight maximumBatchSize := by
  by_cases some : state.prefetched = []
  · rw [some]
    exact Nat.zero_le _
  obtain ⟨expected, batch⟩ := aligned.nextBatch_eq_ok valid target some
  obtain ⟨active, isActive, -⟩ := valid.activeTipInfo_eq
  have length := (nextBatch_spec isActive batch).1
  rw [Node.takePrefetched, batch, ok_bind] at starts
  obtain ⟨_, atMost, -⟩ := bind_eq_ok.mp starts
  rw [ensure_eq_ok] at atMost
  unfold batchRoom
  cases maximumHeight <;> simp only [elim_none, elim_some, getD_none, getD_some] at length ⊢ <;> omega

end

def Executed (headers : HeaderDag) (done : ExecutionTip) (hash : BlockHash) : Prop :=
  ∃ tipInfo info, headers.headers.lookup done.hash = some tipInfo ∧
    headers.ancestorAtHeight tipInfo info.height = some info ∧ info.hash = hash

theorem ancestorWalk_active (valid : headers.Valid crate) {index : Nat}
    (atIndex : headers.activeChain[index]? = some hash)
    (found : headers.headers.lookup hash = some info) (rounds : Nat) (within : rounds ≤ index) :
    ∃ ancestor, headers.ancestorWalk rounds info = some ancestor ∧
      headers.activeChain[index - rounds]? = some ancestor.hash ∧ ancestor.height = index - rounds := by
  induction rounds generalizing index hash info with
  | zero =>
    refine ⟨info, rfl, ?_, valid.active.depth_eq atIndex found⟩
    rw [(valid.rooted.keyed _ _ found).1]
    exact atIndex
  | succ _ ih =>
    obtain ⟨_, found', -, before⟩ := valid.active.entry _ _ atIndex
    cases found.symm.trans found'
    obtain ⟨previous, rfl⟩ : ∃ previous, index = previous + 1 := ⟨index - 1, by omega⟩
    have atParent := before previous rfl
    obtain ⟨_, isParent, -⟩ := valid.active.entry _ _ atParent
    obtain ⟨ancestor, walked, atHeight⟩ := ih atParent isParent (by omega)
    refine ⟨ancestor, ?_, ?_⟩
    · rw [ancestorWalk, isParent, bind_some, walked]
    · rw [Nat.add_sub_add_right]
      exact atHeight

theorem executed_of_active (valid : headers.Valid crate) {height : Nat}
    (onChain : headers.activeChain[done.height]? = some done.hash) (below : height ≤ done.height)
    (active : headers.activeChain[height]? = some hash) : Executed headers done hash := by
  obtain ⟨tipInfo, found, atHeight, -⟩ := valid.active.entry _ _ onChain
  obtain ⟨ancestor, walked, isActive, isHeight⟩ :=
    ancestorWalk_active valid onChain found (done.height - height) (Nat.sub_le _ _)
  rw [Nat.sub_sub_self below] at isActive isHeight
  refine ⟨tipInfo, ancestor, found, ?_, mem_unique isActive active⟩
  rw [ancestorAtHeight, atHeight, isHeight, walked, bind_some, if_pos isHeight]

/-- What the intake promises after a drain: the prefetched blocks are the next ones of the active chain, the next
batch takes them unless it is refused for other reasons, and a submission answered with success was executed. -/
structure Serves (crate : HeaderCrate) (tip : ExecutionTip) (maximumHeight : Option Nat) (maximumBatchSize : Nat)
    (state : Intake) : Prop where
  aligned : state.Aligned crate tip
  starts : takePrefetched crate state.headers tip maximumHeight maximumBatchSize state.prefetched =
    (nextBatch state.headers tip maximumHeight maximumBatchSize).map fun _ => state.prefetched
  settles : ∀ done : ExecutionTip, state.headers.activeChain[done.height]? = some done.hash →
    ∃ verdicts, (state.settleSubmittedBlocks done.height).answers = state.answers ++ verdicts ∧
      ∀ channel, (channel, .connected) ∈ verdicts →
        ∃ submission ∈ state.awaiting, submission.channel = channel ∧ Executed state.headers done submission.hash

section
variable (valid : state.headers.Valid crate)
include valid

theorem keep_staged {store : RedbHeaderStore}
    (written : transact pending.writes (state.store.appendBatch crate [pending.block.header]) = .ok store)
    (accepted : state.headers.insertContextual crate pending.block.header adjustedTime = .ok (after, info)) :
    ∃ next, keep crate { state with headers := after, store } pending = .ok next ∧ next.headers = after ∧
      Staged crate adjustedTime state pending next := by
  obtain ⟨-, inserted⟩ := insertContextual_eq_ok.mp accepted
  obtain ⟨isHeader, ⟨parent, acceptable⟩, retains⟩ := insert_retains valid inserted
  obtain ⟨old, -, isOld⟩ := valid.activeTipInfo_eq
  obtain ⟨tip, isTip, tipFound⟩ := retains.valid.activeTipInfo_eq
  have tipHash := (retains.valid.rooted.keyed _ _ tipFound).1
  have hashed : crate.blockHash pending.block.header = info.hash := isHeader ▸ acceptable.hashed
  have takes : tip.hash = crate.blockHash pending.block.header ↔ old.chainwork < info.chainwork := by
    rw [tipHash, hashed]
    exact activeTip_eq_iff acceptable retains isOld
  simp only [keep, isTip, Except.mapError, ok_bind]
  by_cases isHash : tip.hash = crate.blockHash pending.block.header
  · rw [if_pos isHash]
    exact ⟨_, rfl, rfl, .took ⟨⟨store, written⟩, after, info, old, accepted, isOld, takes.mp isHash⟩ rfl info isHeader
      ⟨parent, acceptable⟩ retains (tipHash.symm.trans isHash)⟩
  rw [if_neg isHash]
  have lighter := Nat.not_lt.mp (mt takes.mpr isHash)
  refine ⟨_, rfl, rfl, .passed ?_ rfl (retains.lighter old isOld lighter).2⟩
  rintro ⟨-, _, _, _, again, found, heavier⟩
  cases accepted.symm.trans again
  cases isOld.symm.trans found
  exact absurd heavier (Nat.not_lt.mpr lighter)

theorem stageSubmission_staged (pending : PendingBlock) :
    ∃ next, stageSubmission crate adjustedTime state pending = .ok next ∧ next.headers.Valid crate ∧
      (∀ hash info, state.headers.headers.lookup hash = some info →
        next.headers.headers.lookup hash = some info) ∧ Staged crate adjustedTime state pending next := by
  have atomic := stageBatchContextual_atomic crate state.headers valid [pending.block.header] adjustedTime
  rw [insertEachContextual_singleton] at atomic
  unfold stageSubmission
  generalize state.headers.stageBatchContextual crate [pending.block.header] adjustedTime = result at atomic ⊢
  cases result with
  | staged batch =>
    obtain ⟨rolledBack, inserted⟩ := atomic
    cases accepted : state.headers.insertContextual crate pending.block.header adjustedTime with
    | error fault =>
      rw [accepted] at inserted
      cases inserted
    | ok result =>
      rw [accepted] at inserted
      have committed : batch.commit.1 = result.1 := (congrArg Prod.fst (Except.ok.inj inserted)).symm
      obtain ⟨-, structural⟩ := insertContextual_eq_ok.mp accepted
      obtain ⟨-, ⟨_, acceptable⟩, retains⟩ := insert_retains valid structural
      dsimp only
      generalize stored : transact pending.writes (state.store.appendBatch crate [pending.block.header]) = write
      cases write with
      | ok store =>
        obtain ⟨next, kept, isAfter, staged⟩ := keep_staged valid stored accepted
        refine ⟨next, by rw [committed]; exact kept, isAfter ▸ retains.valid, ?_, staged⟩
        intro hash info found
        rw [isAfter, retains.headers_eq]
        exact acceptable.stays found
      | error fault =>
        cases fault with
        | panicked => exact absurd stored (transact_safe state.store pending)
        | refused _ =>
          simp only [rolledBack]
          refine ⟨_, rfl, valid, fun _ _ found => found, .passed ?_ rfl rfl⟩
          rintro ⟨⟨_, written⟩, -⟩
          cases stored.symm.trans written
  | refused _ _ =>
    obtain ⟨rfl, refuses⟩ := atomic
    refine ⟨_, rfl, valid, fun _ _ found => found, .passed ?_ rfl rfl⟩
    rintro ⟨-, _, _, _, accepted, -⟩
    rw [accepted] at refuses
    cases refuses
  | panicked => exact atomic.elim

theorem settleSubmittedBlocks_executed (onChain : state.headers.activeChain[done.height]? = some done.hash) :
    ∃ verdicts, (state.settleSubmittedBlocks done.height).answers = state.answers ++ verdicts ∧
      ∀ channel, (channel, .connected) ∈ verdicts →
        ∃ submission ∈ state.awaiting, submission.channel = channel ∧ Executed state.headers done submission.hash := by
  refine ⟨_, rfl, fun channel answered => ?_⟩
  obtain ⟨submission, member, isAnswer⟩ := mem_map.mp answered
  obtain ⟨waiting, passed⟩ := mem_filter.mp member
  rw [Prod.mk.injEq, settled] at isAnswer
  obtain ⟨isChannel, isConnected⟩ := isAnswer
  refine ⟨submission, waiting, isChannel, ?_⟩
  split at isConnected
  · next active =>
    obtain ⟨_, isActive, same⟩ := active
    obtain ⟨_, atHeight, found⟩ := bind_eq_some_iff.mp isActive
    rw [← same, (valid.rooted.keyed _ _ found).1]
    exact executed_of_active valid onChain (Nat.not_lt.mp (of_decide_eq_true passed)) atHeight
  · cases isConnected

end

/-- The prefetched blocks end aligned if the submissions came in order, and linked only if they did. -/
theorem stageSubmissions_spec (submitted : List PendingBlock) (valid : state.headers.Valid crate)
    (retained : state.Retained crate) (room : Nat) :
    ∃ final, foldOutcome (stageSubmission crate adjustedTime) state submitted = .ok final ∧
      final.headers.Valid crate ∧ final.Retained crate ∧ state.prefetched <+: final.prefetched ∧
      (state.Aligned crate tip → state.prefetched.length ≤ room → Orderly crate tip room adjustedTime state submitted →
        final.Aligned crate tip ∧ final.prefetched.length ≤ room) ∧
      (final.Linked crate tip state.prefetched.length → final.prefetched.length ≤ room →
        Orderly crate tip room adjustedTime state submitted) := by
  induction submitted generalizing state with
  | nil => exact ⟨state, rfl, valid, retained, prefix_rfl, fun aligned fits _ => ⟨aligned, fits⟩, fun _ _ => trivial⟩
  | cons pending _ ih =>
    obtain ⟨next, stages, nextValid, grows, step⟩ := stageSubmission_staged valid pending
    obtain ⟨final, ran, finalValid, finalRetained, longer, aligns, orders⟩ :=
      ih nextValid (retained.staged grows step)
    refine ⟨final, bind_eq_ok.mpr ⟨next, stages, ran⟩, finalValid, finalRetained, ?_, ?_, ?_⟩
    · cases step with
      | passed _ prefetched _ => exact prefetched ▸ longer
      | took _ prefetched => exact (prefix_append _ _).trans (prefetched ▸ longer)
    · rintro aligned fits ⟨follows, later⟩
      cases step with
      | passed _ prefetched chain =>
        refine aligns ?_ (prefetched ▸ fits) (later next stages)
        unfold Aligned staged at *
        rw [prefetched, chain]
        exact aligned
      | took takes prefetched _ header parent retains isTip =>
        obtain ⟨_, acceptable⟩ := parent
        obtain ⟨isChild, hasRoom⟩ := follows takes
        refine aligns (aligned.took valid prefetched header acceptable retains isTip isChild) ?_ (later next stages)
        rw [prefetched, length_append]
        exact hasRoom
    · intro linked fits
      refine ⟨fun takes => ?_, fun next' stages' => ?_⟩
      · cases step with
        | passed stays => exact absurd takes stays
        | took _ prefetched =>
          obtain ⟨suffix, isFinal⟩ := longer
          rw [prefetched, append_assoc, singleton_append] at isFinal
          have isBlock : final.prefetched[state.prefetched.length]? = some pending.block := by
            rw [← isFinal, getElem?_append_right le_rfl, Nat.sub_self, getElem?_cons_zero]
          have isStaged : final.staged crate tip = state.staged crate tip ++
              (pending.block :: suffix).map fun block => crate.blockHash block.header := by
            rw [staged, ← isFinal, map_append]
            rfl
          have before := linked _ _ le_rfl isBlock
          rw [isStaged, getElem?_append_left (by rw [staged_length]; omega), staged_last] at before
          exact ⟨(some.inj before).symm, (List.getElem_of_getElem? isBlock).1.trans_le fits⟩
      · cases stages.symm.trans stages'
        refine orders (fun index block start => linked index block (le_trans ?_ start)) fits
        cases step with
        | passed _ prefetched => rw [prefetched]
        | took _ prefetched => rw [prefetched, List.length_append]; exact Nat.le_add_right _ _

/-- The next batch finds the prefetched blocks to be its first ones exactly when submissions came in order and
left room for each other. -/
theorem submitted_blocks_serve_iff (valid : state.headers.Valid crate) (tip : ExecutionTip)
    (onChain : state.headers.activeChain[tip.height]? = some tip.hash) (drained : state.prefetched = [])
    (maximumHeight : Option Nat) (target : ∀ maximum ∈ maximumHeight, tip.height ≤ maximum) (maximumBatchSize : Nat)
    (adjustedTime : Nat) (submitted : List PendingBlock) :
    ∃ final, stageSubmittedBlocks crate adjustedTime state submitted = .ok final ∧
      (final.Serves crate tip maximumHeight maximumBatchSize ↔
        Orderly crate tip (batchRoom tip maximumHeight maximumBatchSize) adjustedTime state submitted) := by
  have retained : state.Retained crate := by
    unfold Retained
    rw [drained]
    exact nofun
  have aligned : state.Aligned crate tip := by
    intro index hash atIndex
    rw [staged, drained] at atIndex
    cases index with
    | zero =>
      cases atIndex
      exact onChain
    | succ _ => cases atIndex
  obtain ⟨final, ran, finalValid, finalRetained, -, aligns, orders⟩ :=
    stageSubmissions_spec submitted valid retained (batchRoom tip maximumHeight maximumBatchSize)
  refine ⟨final, (if_pos drained).trans ran, fun serves => ?_, fun orderly => ?_⟩
  · exact orders (serves.aligned.linked finalValid finalRetained _)
      (serves.aligned.fits finalValid target serves.starts)
  · obtain ⟨finalAligned, fits⟩ := aligns aligned (drained ▸ Nat.zero_le _) orderly
    exact ⟨finalAligned, finalAligned.takePrefetched finalValid fits,
      fun _ => settleSubmittedBlocks_executed finalValid⟩

/-- Blocks of the fixture's headers; only their headers matter here. -/
def fixtureBlock (nonce : Nat) : PendingBlock := ⟨⟨Fixture.header nonce, []⟩, nonce, true⟩

def fixtureIntake : Intake := ⟨Fixture.origin, .empty, [], [], []⟩

def fixtureTip : ExecutionTip := ⟨0, ⟨2⟩⟩

theorem submitted_blocks_serve_two_blocks :
    ∃ final, stageSubmittedBlocks Fixture.crate 10 fixtureIntake [fixtureBlock 2, fixtureBlock 4] = .ok final ∧
      final.Serves Fixture.crate fixtureTip (some 2) 16 := by
  have first : ∀ next, stageSubmission Fixture.crate 10 fixtureIntake (fixtureBlock 2) = .ok next →
      next.prefetched = [(fixtureBlock 2).block] := by
    intro next stages
    have outcome : (stageSubmission Fixture.crate 10 fixtureIntake (fixtureBlock 2)).map Intake.prefetched =
        .ok [(fixtureBlock 2).block] := by decide
    rw [stages] at outcome
    exact Except.ok.inj outcome
  obtain ⟨final, ran, serves⟩ := @submitted_blocks_serve_iff Fixture.crate fixtureIntake
    (valid_withDeployments Fixture.crate Fixture.deployments) fixtureTip rfl rfl (some 2) (by decide) 16 10
    [fixtureBlock 2, fixtureBlock 4]
  refine ⟨final, ran, serves.mpr ⟨fun _ => ⟨rfl, by decide⟩, fun next stages => ⟨fun _ => ?_, fun _ _ => trivial⟩⟩⟩
  rw [lastStaged, first next stages]
  exact ⟨rfl, by decide⟩

/-- A submission, its sibling, and a child of the sibling: the first is prefetched although the last replaced it. -/
theorem submitted_sibling_chain_refused :
    ∃ final, stageSubmittedBlocks Fixture.crate 10 fixtureIntake [fixtureBlock 2, fixtureBlock 3, fixtureBlock 5] =
        .ok final ∧ final.prefetched = [(fixtureBlock 2).block, (fixtureBlock 5).block] ∧
      takePrefetched Fixture.crate final.headers fixtureTip none 16 final.prefetched =
        .error (.refused .prefetchedMismatch) := by
  have outcome : (stageSubmittedBlocks Fixture.crate 10 fixtureIntake
      [fixtureBlock 2, fixtureBlock 3, fixtureBlock 5]).map (fun final => (final.prefetched,
        takePrefetched Fixture.crate final.headers fixtureTip none 16 final.prefetched)) =
      .ok ([(fixtureBlock 2).block, (fixtureBlock 5).block], .error (.refused .prefetchedMismatch)) := by decide
  cases ran : stageSubmittedBlocks Fixture.crate 10 fixtureIntake [fixtureBlock 2, fixtureBlock 3, fixtureBlock 5] with
  | error _ =>
    rw [ran] at outcome
    cases outcome
  | ok final =>
    rw [ran] at outcome
    obtain ⟨prefetched, refused⟩ := Prod.mk.inj (Except.ok.inj outcome)
    exact ⟨final, rfl, prefetched, refused⟩

end Intake

end Rbtc.Node
