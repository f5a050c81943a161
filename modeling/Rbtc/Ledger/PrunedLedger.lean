import Rbtc.Foundation.Interrupted
import Rbtc.Foundation.Words
import Mathlib.Algebra.Order.Ring.Nat
import Mathlib.Data.List.Sort
import Mathlib.Data.List.TakeWhile
import Mathlib.Algebra.Order.BigOperators.Group.List
import Mathlib.Data.List.Chain

/-! The rotating ledger of retained blocks (`ledger.rs`). A file is written under a temporary name and renamed
into place, so a publication is one step; a crash may come between any two. What a prune plan removes. -/

namespace Rbtc.Ledger

open Foundation

section
open Stepwise

abbrev BlockBytes := List UInt8

/-- A complete archive file: its manifest's first height, and its blocks in height order. -/
structure Archive where
  firstHeight : Nat
  blocks : List BlockBytes
  deriving DecidableEq, Repr

structure LedgerRetention where
  maxBlocks : Nat
  maxBytes : Nat
  slots : Nat
  deriving DecidableEq, Repr

structure Segment where
  firstHeight : Nat
  blockCount : Nat
  slot : Nat
  bytes : Nat
  deriving DecidableEq, Repr

structure LedgerIndex where
  nextSlot : Nat := 0
  segments : List Segment := []
  deriving DecidableEq, Repr

structure LedgerPruneIntent where
  requestedThroughHeight : Nat
  minimumBlocksPreserved : Nat
  deriving DecidableEq, Repr

structure LedgerPrunePlan where
  requestedThroughHeight : Nat
  effectiveThroughHeight : Option Nat
  firstRetainedHeight : Option Nat
  tipHeight : Option Nat
  segmentsRemoved : Nat
  blocksRemoved : Nat
  bytesReclaimed : Nat
  minimumBlocksPreserved : Nat
  deriving DecidableEq, Repr

inductive LedgerError where
  | notFound
  | archive (message : String)
  | invalid (message : String)
  deriving DecidableEq, Repr

/-- What the encodings decide: the length of an archive file, and the commitment of a prune plan. -/
structure LedgerCodec (τ : Type) where
  fileBytes : Archive → Nat
  planToken : LedgerIndex → LedgerPrunePlan → τ

/-- The files of a ledger: the archives in their slots, and the others by name. -/
structure LedgerDirectory where
  slots : Nat → Option Archive
  index : Option LedgerIndex
  staged : Option Archive
  truncateIntent : Option Nat
  pruneIntent : Option LedgerPruneIntent
  policy : Option LedgerRetention

def LedgerDirectory.empty : LedgerDirectory := ⟨fun _ => none, none, none, none, none, none⟩

def maxBlockBytes : Nat := 4000000
def maxBlocksPerArchive : Nat := 100000
def maxRecordsBytes : Nat := 1024 * 1024 * 1024
def maxContainerBytes : Nat := maxRecordsBytes + 16 * 1024 * 1024 + 12

def segmentEndInclusive (segment : Segment) : Except LedgerError Nat :=
  if segment.blockCount = 0 then .error (.invalid "empty segment")
  else require (checkedAdd 32 segment.firstHeight (segment.blockCount - 1)) (.invalid "height overflow")

def segmentEndExclusive (segment : Segment) : Except LedgerError Nat :=
  require (checkedAdd 32 segment.firstHeight segment.blockCount) (.invalid "height overflow")

def segmentContains (segment : Segment) (height : Nat) : Bool :=
  decide (segment.firstHeight ≤ height) &&
    (checkedAdd 32 segment.firstHeight segment.blockCount).any fun stop => decide (height < stop)

/-- Whether segments follow one another from an expected height, in distinct slots of the ring and all
found on disk. -/
def validSegments (scanned : List Segment) (slots : Nat) : Option Nat → List Nat → List Segment → Bool
  | _, _, [] => true
  | expected, used, segment :: rest =>
    decide (segment.slot < slots) && !used.contains segment.slot && scanned.contains segment &&
      (expected.all fun height => height == segment.firstHeight) &&
      match checkedAdd 32 segment.firstHeight segment.blockCount with
      | some stop => validSegments scanned slots (some stop) (segment.slot :: used) rest
      | none => false

def validIndex (index : LedgerIndex) (scanned : List Segment) (slots : Nat) : Bool :=
  decide (index.nextSlot < slots) && validSegments scanned slots none [] index.segments

/-- The scanned segment that continues a chain in a slot the chain does not use. -/
def continuation (scanned chain : List Segment) : Option Segment := do
  let last ← chain.getLast?
  let expected ← checkedAdd 32 last.firstHeight last.blockCount
  scanned.find? fun segment =>
    segment.firstHeight == expected && !chain.any fun live => live.slot == segment.slot

/-- A chain continued as far as the scanned segments go; each continuation takes a slot. -/
def extendChain (scanned : List Segment) : Nat → List Segment → List Segment
  | 0, chain => chain
  | fuel + 1, chain =>
    match continuation scanned chain with
    | some next => extendChain scanned fuel (chain ++ [next])
    | none => chain

def chainEnd (chain : List Segment) : Nat :=
  (chain.getLast?.bind fun last => checkedAdd 32 last.firstHeight last.blockCount).getD 0

def betterChain (scanned best : List Segment) (first : Segment) : List Segment :=
  let chain := extendChain scanned scanned.length [first]
  if chainEnd best < chainEnd chain ∨ chainEnd best = chainEnd chain ∧ best.length < chain.length then chain else best

def bestContiguousChain (scanned : List Segment) : List Segment := scanned.foldl (betterChain scanned) []

def exceeds (segments : List Segment) (retention : LedgerRetention) : Bool :=
  decide (retention.maxBlocks < (segments.map Segment.blockCount).sum) ||
    decide (retention.maxBytes < (segments.map Segment.bytes).sum)

def trim (retention : LedgerRetention) : List Segment → List Segment
  | [] => []
  | segment :: rest => if exceeds (segment :: rest) retention then trim retention rest else segment :: rest

variable {τ : Type} (codec : LedgerCodec τ) (retention : LedgerRetention)

def recordBytes (blocks : List BlockBytes) : Except LedgerError Nat :=
  foldOutcome (fun total block =>
    if maxBlockBytes < block.length then .error (.archive "block too large")
    else if maxRecordsBytes < total + 4 + block.length then .error (.archive "records too large")
    else .ok (total + 4 + block.length)) 0 blocks

def encodeArchive (firstHeight : Nat) (blocks : List BlockBytes) : Except LedgerError (Archive × Nat) :=
  if blocks = [] then .error (.archive "empty archive")
  else if maxBlocksPerArchive < blocks.length then .error (.archive "too many blocks")
  else do
    let _ ← recordBytes blocks
    let archive : Archive := ⟨firstHeight, blocks⟩
    if maxContainerBytes < codec.fileBytes archive then .error (.archive "archive too large")
    else return (archive, codec.fileBytes archive)

def segmentOf (slot : Nat) (archive : Archive) : Segment :=
  ⟨archive.firstHeight, archive.blocks.length, slot, codec.fileBytes archive⟩

def Segment.ScansBefore (left right : Segment) : Prop :=
  left.firstHeight < right.firstHeight ∨ left.firstHeight = right.firstHeight ∧ left.slot ≤ right.slot

instance : DecidableRel Segment.ScansBefore := fun _ _ => inferInstanceAs (Decidable (_ ∨ _))

variable (directory : LedgerDirectory)

def scanSegments : List Segment :=
  ((List.range retention.slots).filterMap fun slot => do
    let archive ← directory.slots slot
    if archive.blocks.length = 0 ∨ retention.maxBytes < codec.fileBytes archive then none
    else some (segmentOf codec slot archive)).insertionSort Segment.ScansBefore

abbrev LedgerProgram (α : Type) := Stepwise LedgerDirectory LedgerError α

def LedgerDirectory.readIndex : LedgerIndex := directory.index.getD {}

def readIndex : LedgerProgram LedgerIndex := do return (← read).readIndex

def writeIndex (index : LedgerIndex) : LedgerProgram Unit :=
  .change fun directory => { directory with index := some index }

def publishSlot (slot : Nat) (archive : Archive) : LedgerProgram Unit :=
  .change fun directory => { directory with slots := Function.update directory.slots slot (some archive) }

def removeSlot (slot : Nat) : LedgerProgram Unit :=
  .change fun directory => { directory with slots := Function.update directory.slots slot none }

def removeStaged : LedgerProgram Unit := .change fun directory => { directory with staged := none }

def removeUnindexedSlot (index : LedgerIndex) (slot : Nat) : LedgerProgram Unit :=
  if index.segments.any fun segment => segment.slot == slot then return
  else do
    match (← read).slots slot with
    | some _ => removeSlot slot
    | none => return

def cleanupUnindexedSlotsLocked (index : LedgerIndex) : LedgerProgram Unit :=
  (List.range retention.slots).forM (removeUnindexedSlot index)

def recoveredIndex : LedgerIndex :=
  let scanned := scanSegments codec retention directory
  let persisted := directory.index.filter fun index => validIndex index scanned retention.slots
  let chain := match persisted.filter fun index => !index.segments.isEmpty with
    | some index => extendChain scanned scanned.length index.segments
    | none => bestContiguousChain scanned
  let segments := trim retention chain
  { nextSlot := (segments.getLast?.map fun segment => (segment.slot + 1) % retention.slots).getD 0, segments }

def recoverIndex : LedgerProgram Unit := do
  let directory ← read
  writeIndex (recoveredIndex codec retention directory)

def truncateSlot (height slot : Nat) : LedgerProgram Unit := do
  let directory ← read
  match directory.slots slot with
  | none => return
  | some archive =>
    let stop ← lift
      (require (checkedAdd 32 archive.firstHeight archive.blocks.length) (.invalid "height overflow"))
    if height ≤ archive.firstHeight then removeSlot slot
    else if height < stop then do
      let (shortened, _) ← lift
        (encodeArchive codec archive.firstHeight (archive.blocks.take (height - archive.firstHeight)))
      publishSlot slot shortened
    else return

def applyTruncation (height : Nat) : LedgerProgram Unit := do
  (List.range retention.slots).forM (truncateSlot codec height)
  recoverIndex codec retention

def writeTruncateIntent (height : Nat) : LedgerProgram Unit :=
  .change fun directory => { directory with truncateIntent := some height }

def clearTruncateIntent : LedgerProgram Unit := do
  match (← read).truncateIntent with
  | some _ => .change fun directory => { directory with truncateIntent := none }
  | none => return

def recoverTruncation : LedgerProgram Unit := do
  match (← read).truncateIntent with
  | none => return
  | some height =>
    applyTruncation codec retention height
    clearTruncateIntent

/-- The complete segments that end at or before a target: how many, their blocks, bytes and last height. -/
def pruneThrough (target : Nat) : List Segment → Except LedgerError (Nat × Nat × Nat × Option Nat)
  | [] => .ok (0, 0, 0, none)
  | segment :: rest => do
      let stop ← segmentEndInclusive segment
      if target < stop then return (0, 0, 0, none)
      else
        let (removed, blocks, bytes, effective) ← pruneThrough target rest
        return (removed + 1, saturatingAdd 64 segment.blockCount blocks, saturatingAdd 64 segment.bytes bytes,
          some (effective.getD stop))

def buildPrunePlan (index : LedgerIndex) (requestedThroughHeight minimumBlocksPreserved : Nat) :
    Except LedgerError LedgerPrunePlan := do
  let tipHeight ← index.segments.getLast?.mapM segmentEndInclusive
  let target := tipHeight.bind fun tip =>
    if minimumBlocksPreserved ≤ tip then some (min requestedThroughHeight (tip - minimumBlocksPreserved)) else none
  let (removed, blocks, bytes, effective) ←
    (target.map fun target => pruneThrough target index.segments).getD (.ok (0, 0, 0, none))
  if 2 ^ 32 ≤ removed then .error (.invalid "too many ledger segments")
  else return {
    requestedThroughHeight, minimumBlocksPreserved, tipHeight
    effectiveThroughHeight := effective
    firstRetainedHeight := index.segments[removed]?.map Segment.firstHeight
    segmentsRemoved := removed
    blocksRemoved := blocks
    bytesReclaimed := bytes }

def applyPruning (requestedThroughHeight minimumBlocksPreserved : Nat) : LedgerProgram Unit := do
  let index ← readIndex
  let plan ← lift (buildPrunePlan index requestedThroughHeight minimumBlocksPreserved)
  if plan.segmentsRemoved = 0 then return
  else do
    let kept := { index with segments := index.segments.drop plan.segmentsRemoved }
    writeIndex kept
    cleanupUnindexedSlotsLocked retention kept

def writePruneIntent (intent : LedgerPruneIntent) : LedgerProgram Unit :=
  .change fun directory => { directory with pruneIntent := some intent }

def clearPruneIntent : LedgerProgram Unit := do
  match (← read).pruneIntent with
  | some _ => .change fun directory => { directory with pruneIntent := none }
  | none => return

def recoverPruning : LedgerProgram Unit := do
  match (← read).pruneIntent with
  | none => return
  | some intent =>
    applyPruning retention intent.requestedThroughHeight intent.minimumBlocksPreserved
    clearPruneIntent

def applyPrunePlan [DecidableEq τ] (requestedThroughHeight minimumBlocksPreserved : Nat) (planToken : τ) :
    LedgerProgram LedgerPrunePlan := do
  let index ← readIndex
  let plan ← lift (buildPrunePlan index requestedThroughHeight minimumBlocksPreserved)
  if codec.planToken index plan ≠ planToken then
    lift (.error (.invalid "manual prune plan token is stale or invalid"))
  else if plan.segmentsRemoved = 0 then return plan
  else do
    writePruneIntent ⟨requestedThroughHeight, minimumBlocksPreserved⟩
    applyPruning retention requestedThroughHeight minimumBlocksPreserved
    clearPruneIntent
    return plan

def persistRetentionPolicy : LedgerProgram Unit := do
  if (← read).policy = some retention then return
  else .change fun directory => { directory with policy := some retention }

def openWithDurability : LedgerProgram Unit :=
  if retention.maxBlocks = 0 ∨ retention.maxBytes = 0 ∨ retention.slots = 0 then
    lift (.error (.invalid "all retention limits must be non-zero"))
  else do
    recoverIndex codec retention
    recoverTruncation codec retention
    recoverPruning retention
    let index ← readIndex
    cleanupUnindexedSlotsLocked retention index
    persistRetentionPolicy retention

def extendIndex (index : LedgerIndex) (slot : Nat) (segment : Segment) : LedgerIndex where
  nextSlot := (slot + 1) % retention.slots
  segments := trim retention ((index.segments.filter fun live => live.slot != slot) ++ [segment])

def checkAppend (index : LedgerIndex) (firstHeight : Nat) (blocks : List BlockBytes) : Except LedgerError Unit :=
  if 2 ^ 32 ≤ blocks.length then .error (.invalid "too many blocks")
  else if retention.maxBlocks < blocks.length then .error (.invalid "single segment exceeds maximum blocks")
  else match index.segments.getLast? with
    | none => .ok ()
    | some last => do
        let expected ← segmentEndExclusive last
        if firstHeight ≠ expected then .error (.invalid "segment is not contiguous") else .ok ()

def appendLocked (firstHeight : Nat) (blocks : List BlockBytes) : LedgerProgram Unit :=
  if blocks = [] then lift (.error (.invalid "empty segment"))
  else do
    let index ← readIndex
    lift (checkAppend retention index firstHeight blocks)
    let (archive, bytes) ← lift (encodeArchive codec firstHeight blocks)
    if retention.maxBytes < bytes then
      lift (.error (.invalid "single segment exceeds maximum bytes"))
    else do
      let slot := index.nextSlot % retention.slots
      publishSlot slot archive
      let next := extendIndex retention index slot (segmentOf codec slot archive)
      writeIndex next
      cleanupUnindexedSlotsLocked retention next

def checkStage (blocks : List BlockBytes) : Except LedgerError Unit :=
  if blocks = [] then .error (.invalid "empty staged segment")
  else if 2 ^ 32 ≤ blocks.length then .error (.invalid "too many blocks")
  else if retention.maxBlocks < blocks.length then .error (.invalid "staged segment exceeds maximum blocks")
  else .ok ()

def stage (firstHeight : Nat) (blocks : List BlockBytes) : LedgerProgram Unit := do
  lift (checkStage retention blocks)
  let directory ← read
  if directory.staged.isSome then lift (.error (.invalid "staged segment already exists"))
  else do
    let (archive, bytes) ← lift (encodeArchive codec firstHeight blocks)
    if retention.maxBytes < bytes then
      lift (.error (.invalid "staged segment exceeds maximum bytes"))
    else change fun directory => { directory with staged := some archive }

def publishStagedLocked (archive : Archive) (index : LedgerIndex) : LedgerProgram Unit :=
  if retention.maxBytes < codec.fileBytes archive then
    lift (.error (.invalid "single segment exceeds maximum bytes"))
  else do
    let slot := index.nextSlot % retention.slots
    -- one rename takes the staged file into the ring
    change fun directory =>
      { directory with slots := Function.update directory.slots slot (some archive), staged := none }
    let next := extendIndex retention index slot (segmentOf codec slot archive)
    writeIndex next
    cleanupUnindexedSlotsLocked retention next

def readBlockFromIndex (index : LedgerIndex) (height : Nat) :
    Except LedgerError (Option BlockBytes) :=
  match index.segments.find? fun segment => segmentContains segment height with
  | none => .ok none
  | some segment => do
      let archive ← require (directory.slots segment.slot) .notFound
      if archive.firstHeight ≠ segment.firstHeight ∨ archive.blocks.length ≠ segment.blockCount then
        .error (.invalid "archive does not match ledger index")
      else some <$> require archive.blocks[height - segment.firstHeight]? (.invalid "archive block missing")

def readBlock (height : Nat) : Except LedgerError (Option BlockBytes) :=
  readBlockFromIndex directory directory.readIndex height

def retainedBytesMatch (directory : LedgerDirectory) (index : LedgerIndex) :
    Nat → List BlockBytes → Except LedgerError Bool
  | _, [] => .ok true
  | height, expected :: rest => do
      if 2 ^ 32 ≤ height then .error (.invalid "height overflow")
      else match ← readBlockFromIndex directory index height with
        | none => return false
        | some actual => if actual ≠ expected then return false else
            retainedBytesMatch directory index (height + 1) rest

def commitStaged (blockCount : Nat) : LedgerProgram Unit :=
  if blockCount = 0 then lift (.error (.invalid "empty staged commit"))
  else do
    let directory ← read
    let archive ← lift (require directory.staged .notFound)
    if archive.blocks.length < blockCount then
      lift (.error (.invalid "staged commit exceeds segment"))
    else do
      let index := directory.readIndex
      let retainedNext ← lift (index.segments.getLast?.mapM segmentEndExclusive)
      if retainedNext = none ∨ retainedNext = some archive.firstHeight then
        if blockCount = archive.blocks.length then publishStagedLocked codec retention archive index
        else do
          appendLocked codec retention archive.firstHeight (archive.blocks.take blockCount)
          removeStaged
      else if checkedAdd 32 archive.firstHeight blockCount = retainedNext then do
        let same ← lift
          (retainedBytesMatch directory index archive.firstHeight (archive.blocks.take blockCount))
        if same then removeStaged
        else lift (.error (.invalid "staged segment does not extend ledger tip"))
      else lift (.error (.invalid "staged segment does not extend ledger tip"))

def discardStaged : LedgerProgram Unit := do
  match (← read).staged with
  | some _ => removeStaged
  | none => return

def truncateFrom (firstRemovedHeight : Nat) : LedgerProgram Unit := do
  writeTruncateIntent firstRemovedHeight
  applyTruncation codec retention firstRemovedHeight
  clearTruncateIntent

/-- The calls that change a ledger. -/
inductive LedgerCall (τ : Type) where
  | append (firstHeight : Nat) (blocks : List BlockBytes)
  | stage (firstHeight : Nat) (blocks : List BlockBytes)
  | commitStaged (blockCount : Nat)
  | discardStaged
  | truncateFrom (firstRemovedHeight : Nat)
  | applyPrunePlan (requestedThroughHeight minimumBlocksPreserved : Nat) (planToken : τ)

def LedgerCall.program [DecidableEq τ] : LedgerCall τ → LedgerProgram Unit
  | .append firstHeight blocks => appendLocked codec retention firstHeight blocks
  | .stage firstHeight blocks => Ledger.stage codec retention firstHeight blocks
  | .commitStaged blockCount => Ledger.commitStaged codec retention blockCount
  | .discardStaged => Ledger.discardStaged
  | .truncateFrom firstRemovedHeight => Ledger.truncateFrom codec retention firstRemovedHeight
  | .applyPrunePlan requested minimum planToken => do
      let _ ← Ledger.applyPrunePlan codec retention requested minimum planToken

end

section
open List

section
variable {α : Type} (ends : α → Nat) (requested minimum : Nat) (items : List α)

/-- The longest initial part whose items end at or below both the requested height and the last end less a minimum. -/
def prunable : List α :=
  items.takeWhile fun item => ends item ≤ requested ∧ ∀ last ∈ items.getLast?, ends item + minimum ≤ ends last

theorem prunable_isInitial : prunable ends requested minimum items <+: items := takeWhile_prefix _

theorem of_mem_prunable {item : α} (member : item ∈ prunable ends requested minimum items) :
    ends item ≤ requested ∧ ∀ last ∈ items.getLast?, ends item + minimum ≤ ends last := by
  have met := mem_takeWhile_imp member
  rwa [decide_eq_true_eq] at met

theorem takeWhile_drop_takeWhile (test : α → Bool) :
    (items.drop (items.takeWhile test).length).takeWhile test = [] := by
  induction items with
  | nil => rfl
  | cons _ _ ih =>
    rw [takeWhile_cons]
    split
    · exact ih
    · next unmet => rw [length_nil, drop_zero, takeWhile_cons_of_neg unmet]

theorem prunable_drop : prunable ends requested minimum
    (items.drop (prunable ends requested minimum items).length) = [] := by
  by_cases all : items.length ≤ (prunable ends requested minimum items).length
  · rw [drop_eq_nil_of_le all]
    rfl
  · rw [prunable, getLast?_drop, if_neg all]
    exact takeWhile_drop_takeWhile items _

theorem prunable_eq : prunable ends requested minimum items = match items.getLast? with
    | none => []
    | some last =>
      if minimum ≤ ends last then items.takeWhile fun item => ends item ≤ min requested (ends last - minimum)
      else [] := by
  rw [prunable]
  split
  · next nothing =>
    rw [getLast?_eq_none_iff.mp nothing]
    rfl
  next last isLast =>
  rw [isLast]
  split
  · congr 1
    funext item
    rw [decide_eq_decide]
    simp only [Option.mem_some_iff, forall_eq']
    omega
  · refine takeWhile_eq_nil_iff.mpr fun _ met => ?_
    simp only [Option.mem_some_iff, forall_eq', decide_eq_true_eq] at met
    omega

theorem prunable_map {β : Type} (item : β → α) (parts : List β) : prunable ends requested minimum (parts.map item) =
    (prunable (fun part => ends (item part)) requested minimum parts).map item := by
  rw [prunable, takeWhile_map]
  congr 2
  funext part
  simp

theorem prunable_mono {more : Nat} (le : requested ≤ more) :
    prunable ends requested minimum items <+: prunable ends more minimum items := by
  have narrower : prunable ends requested minimum items =
      (prunable ends more minimum items).takeWhile fun item => ends item ≤ requested := by
    rw [prunable, prunable, takeWhile_takeWhile]
    congr 1
    funext item
    rw [decide_eq_decide, decide_eq_true_eq, decide_eq_true_eq]
    exact ⟨fun ⟨low, kept⟩ => ⟨low, low.trans le, kept⟩, fun ⟨low, _, kept⟩ => ⟨low, kept⟩⟩
  rw [narrower]
  exact takeWhile_prefix _

end

def Segment.last (segment : Segment) : Nat := segment.firstHeight + segment.blockCount - 1

/-- Segments with blocks, of heights that fit 32 bits. -/
def Filled (segments : List Segment) : Prop :=
  ∀ segment ∈ segments, 0 < segment.blockCount ∧ segment.firstHeight + segment.blockCount < 2 ^ 32

variable {segments : List Segment}

theorem segmentEndInclusive_eq (filled : Filled segments) {segment : Segment} (member : segment ∈ segments) :
    segmentEndInclusive segment = .ok segment.last := by
  obtain ⟨some, fits⟩ := filled segment member
  rw [segmentEndInclusive, if_neg (by omega), checkedAdd, if_pos (by omega), ← Nat.add_sub_assoc some]
  rfl

theorem pruneThrough_eq (filled : Filled segments) (target : Nat) : ∃ removed,
    removed = segments.takeWhile (fun segment => segment.last ≤ target) ∧
    pruneThrough target segments = .ok (removed.length, min (removed.map Segment.blockCount).sum (2 ^ 64 - 1),
      min (removed.map Segment.bytes).sum (2 ^ 64 - 1), removed.getLast?.map Segment.last) := by
  induction segments with
  | nil => exact ⟨_, rfl, rfl⟩
  | cons first rest ih =>
    obtain ⟨removed, isRemoved, later⟩ := ih fun segment member => filled segment (mem_cons_of_mem _ member)
    rw [pruneThrough, segmentEndInclusive_eq filled mem_cons_self, ok_bind, later, ok_bind]
    by_cases ends : first.last ≤ target
    · refine ⟨first :: removed, by simp [isRemoved, ends], ?_⟩
      rw [if_neg (Nat.not_lt.mpr ends), getLast?_cons]
      simp only [saturatingAdd, saturate, Option.getD_map, map_cons, sum_cons, length_cons, Option.map_some, pure_eq_ok,
        Prod.mk.injEq, true_and, and_true]
      omega
    · refine ⟨[], by simp [ends], ?_⟩
      rw [if_pos (Nat.lt_of_not_le ends)]
      rfl

/-- The plan that removes the prunable segments. -/
def planOf (index : LedgerIndex) (requested minimum : Nat) : LedgerPrunePlan :=
  let removed := prunable Segment.last requested minimum index.segments
  { requestedThroughHeight := requested
    effectiveThroughHeight := removed.getLast?.map Segment.last
    firstRetainedHeight := index.segments[removed.length]?.map Segment.firstHeight
    tipHeight := index.segments.getLast?.map Segment.last
    segmentsRemoved := removed.length
    blocksRemoved := min (removed.map Segment.blockCount).sum (2 ^ 64 - 1)
    bytesReclaimed := min (removed.map Segment.bytes).sum (2 ^ 64 - 1)
    minimumBlocksPreserved := minimum }

theorem buildPrunePlan_of_filled {index : LedgerIndex} (filled : Filled index.segments) (requested minimum : Nat) :
    buildPrunePlan index requested minimum =
      if 2 ^ 32 ≤ (prunable Segment.last requested minimum index.segments).length then
        .error (.invalid "too many ledger segments")
      else .ok (planOf index requested minimum) := by
  rw [buildPrunePlan, planOf, prunable_eq]
  cases isLast : index.segments.getLast? with
  | none =>
    rfl
  | some last =>
    have isTip : segmentEndInclusive last = .ok last.last := segmentEndInclusive_eq filled (mem_of_getLast? isLast)
    obtain ⟨_, rfl, searched⟩ := pruneThrough_eq filled (min requested (last.last - minimum))
    by_cases floor : minimum ≤ last.last
    · simp [isTip, floor, searched]
      rfl
    · simp [isTip, floor]

structure Contiguous (segments : List Segment) : Prop where
  filled : Filled segments
  chained : segments.IsChain fun lower upper => lower.firstHeight + lower.blockCount = upper.firstHeight

theorem Contiguous.sum_lt (contiguous : Contiguous segments) : (segments.map Segment.blockCount).sum < 2 ^ 32 := by
  have above : ∀ first ∈ segments.head?, first.firstHeight + (segments.map Segment.blockCount).sum < 2 ^ 32 := by
    induction segments with
    | nil => nofun
    | cons first rest ih =>
      rintro _ ⟨⟩
      cases rest with
      | nil => simpa using (contiguous.filled first mem_cons_self).2
      | cons second _ =>
        have later := ih ⟨fun segment member => contiguous.filled segment (mem_cons_of_mem _ member),
          contiguous.chained.tail⟩ second rfl
        have meets := (isChain_cons_cons.mp contiguous.chained).1
        simp only [map_cons, sum_cons] at later ⊢
        omega
  cases segments with
  | nil => simp
  | cons first _ =>
    have := above first rfl
    omega

/-- A plan removes the prunable segments, leaves the newest blocks, and is final until more is requested. -/
theorem prune_plans_are_minimal {index : LedgerIndex} (contiguous : Contiguous index.segments)
    (requested minimum : Nat) : ∃ plan removed, buildPrunePlan index requested minimum = .ok plan ∧
      removed = prunable Segment.last requested minimum index.segments ∧ plan.segmentsRemoved = removed.length ∧
      plan.effectiveThroughHeight = removed.getLast?.map Segment.last ∧
      plan.blocksRemoved = (removed.map Segment.blockCount).sum ∧
      plan.bytesReclaimed = min (removed.map Segment.bytes).sum (2 ^ 64 - 1) ∧
      (∀ height, (∃ segment ∈ index.segments, segmentContains segment height = true) →
        (∀ tip ∈ index.segments.getLast?, tip.last < height + minimum) →
        ∃ segment ∈ index.segments.drop plan.segmentsRemoved, segmentContains segment height = true) ∧
      (∃ again, buildPrunePlan { index with segments := index.segments.drop plan.segmentsRemoved } requested minimum =
        .ok again ∧ again.segmentsRemoved = 0) ∧
      ∀ more, requested ≤ more → ∃ later, buildPrunePlan index more minimum = .ok later ∧
        plan.segmentsRemoved ≤ later.segmentsRemoved := by
  have total := contiguous.sum_lt
  have count : index.segments.length ≤ (index.segments.map Segment.blockCount).sum := by
    rw [← length_map Segment.blockCount]
    refine length_le_sum_of_one_le _ fun count member => ?_
    obtain ⟨segment, isSegment, rfl⟩ := mem_map.mp member
    exact (contiguous.filled segment isSegment).1
  have built : ∀ requested, buildPrunePlan index requested minimum = .ok (planOf index requested minimum) := by
    intro requested
    have fewer := (prunable_isInitial Segment.last requested minimum index.segments).length_le
    rw [buildPrunePlan_of_filled contiguous.filled, if_neg (by omega)]
  have initial := prunable_isInitial Segment.last requested minimum index.segments
  have blocks := (initial.sublist.map Segment.blockCount).sum_le_sum (by simp)
  refine ⟨_, _, built requested, rfl, rfl, rfl, min_eq_left (by omega), rfl, ?_, ?_, fun more le => ⟨_, built more, ?_⟩⟩
  · rintro height ⟨segment, member, contains⟩ newest
    rw [← prefix_iff_eq_append.mp initial, mem_append] at member
    rcases member with isPruned | stays
    · have low := (of_mem_prunable _ _ _ _ isPruned).2
      obtain ⟨tip, isTip⟩ := Option.ne_none_iff_exists'.mp (mt getLast?_eq_none_iff.mp
        (ne_nil_of_mem (initial.subset isPruned)))
      have above := newest tip isTip
      have below := low tip isTip
      have inside : height ≤ segment.last := by
        simp only [segmentContains, checkedAdd, Bool.and_eq_true] at contains
        split at contains
        · simp only [Option.any_some, decide_eq_true_eq] at contains
          rw [Segment.last]
          omega
        · simp at contains
      omega
    · exact ⟨segment, stays, contains⟩
  · have idle := prunable_drop Segment.last requested minimum index.segments
    refine ⟨_, (buildPrunePlan_of_filled ?_ requested minimum).trans (if_neg ?_), ?_⟩
    · exact fun segment member => contiguous.filled segment (mem_of_mem_drop member)
    · exact fun many => absurd (idle ▸ many) (by decide)
    · exact congrArg length idle
  · exact (prunable_mono _ _ _ _ le).length_le

def hugeIndex : LedgerIndex := ⟨0, [⟨0, 1, 0, 2 ^ 63⟩, ⟨1, 1, 1, 2 ^ 63⟩, ⟨2, 1, 2, 1⟩]⟩

theorem contiguous_hugeIndex : Contiguous hugeIndex.segments := by
  refine ⟨?_, by decide⟩
  unfold Filled
  decide

theorem prune_plans_are_minimal_of_three : ∃ plan, buildPrunePlan hugeIndex 0 1 = .ok plan ∧
    plan.segmentsRemoved = 1 ∧ plan.bytesReclaimed = 2 ^ 63 := by
  obtain ⟨plan, _, built, rfl, removed, _, _, bytes, _⟩ := prune_plans_are_minimal contiguous_hugeIndex 0 1
  exact ⟨plan, built, removed.trans (by decide), bytes.trans (by decide)⟩

/-- The total saturates where the sizes of the removed segments do not fit 64 bits. -/
theorem prune_plan_total_saturates : Contiguous hugeIndex.segments ∧ ∃ plan, buildPrunePlan hugeIndex 1 1 = .ok plan ∧
    plan.bytesReclaimed < ((prunable Segment.last 1 1 hugeIndex.segments).map Segment.bytes).sum :=
  ⟨contiguous_hugeIndex, _, rfl, by decide⟩

end

end Rbtc.Ledger
