import Rbtc.Ledger.LedgerCalls

/-! The ledger over whole runs: calls, crashes inside them, and reopens that may be cut short as well. -/

namespace Rbtc.Ledger

open Foundation Stepwise List Option Placed

variable {τ : Type} {codec : LedgerCodec τ} {quota : LedgerRetention} {placed next : List Placed}
  {folder crashed reopened : LedgerDirectory} {staged later : Option Archive}

section
variable (codec quota)

/-- Attempts to open the ledger, each cut short somewhere. -/
def Reopening : LedgerDirectory → LedgerDirectory → Prop :=
  Relation.ReflTransGen (openWithDurability codec quota).Passes

/-- A successful open after any such attempts. -/
def Reopens (folder reopened : LedgerDirectory) : Prop :=
  ∃ current, Reopening codec quota folder current ∧ (openWithDurability codec quota).outcome current = .ok () ∧
    (openWithDurability codec quota).left current = reopened

/-- A call whose heights stay below 2^32, whose truncation enlarges no file and whose prune keeps a block. -/
def LedgerCall.Fits (folder : LedgerDirectory) : LedgerCall τ → Prop
  | .append firstHeight blocks | .stage firstHeight blocks => firstHeight + blocks.length < 2 ^ 32
  | .truncateFrom firstRemovedHeight => ∀ slot archive, folder.slots slot = some archive →
      archive.firstHeight < firstRemovedHeight → firstRemovedHeight < archive.firstHeight + archive.blocks.length →
        codec.fileBytes ⟨archive.firstHeight, archive.blocks.take (firstRemovedHeight - archive.firstHeight)⟩ ≤
          codec.fileBytes archive
  | .applyPrunePlan _ minimumBlocksPreserved _ => minimumBlocksPreserved ≠ 0
  | .commitStaged _ | .discardStaged => True

/-- The block last committed at a height, and neither truncated nor pruned since. -/
abbrev History := Nat → Option BlockBytes

def Archive.blockAt (archive : Archive) (height : Nat) : Option BlockBytes :=
  if archive.firstHeight ≤ height then archive.blocks[height - archive.firstHeight]? else none

def LedgerDirectory.prunes (folder : LedgerDirectory) (requested minimum height : Nat) : Bool :=
  (buildPrunePlan folder.readIndex requested minimum).toOption.any fun plan =>
    plan.effectiveThroughHeight.any fun through => decide (height ≤ through)

def History.after (history : History) (folder : LedgerDirectory) : LedgerCall τ → History
  | .append firstHeight blocks => fun height => ((⟨firstHeight, blocks⟩ : Archive).blockAt height).or (history height)
  | .commitStaged blockCount => fun height =>
    (folder.staged.bind fun archive =>
      (⟨archive.firstHeight, archive.blocks.take blockCount⟩ : Archive).blockAt height).or (history height)
  | .truncateFrom firstRemovedHeight => fun height => if height < firstRemovedHeight then history height else none
  | .applyPrunePlan requested minimum _ => fun height =>
    if folder.prunes requested minimum height then none else history height
  | .stage _ _ | .discardStaged => history

/-- The ledgers that a run reaches between calls, with their history. A call takes effect with its first step. -/
inductive Reached [DecidableEq τ] : LedgerDirectory → History → Prop
  | opened {reopened : LedgerDirectory} (reopens : Reopens codec quota .empty reopened) :
      Reached reopened fun _ => none
  | refused {folder : LedgerDirectory} {history : History} {call : LedgerCall τ} {fault : LedgerError}
      (before : Reached folder history) (fits : call.Fits codec folder)
      (fails : (call.program codec quota).outcome folder = .error fault) :
      Reached ((call.program codec quota).left folder) history
  | performed {folder : LedgerDirectory} {history : History} {call : LedgerCall τ}
      (before : Reached folder history) (fits : call.Fits codec folder)
      (returns : (call.program codec quota).outcome folder = .ok ()) :
      Reached ((call.program codec quota).left folder) (history.after folder call)
  | forgotten {folder reopened : LedgerDirectory} {history : History}
      (before : Reached folder history) (reopens : Reopens codec quota folder reopened) : Reached reopened history
  | interrupted {folder crashed reopened : LedgerDirectory} {history : History} {call : LedgerCall τ}
      (before : Reached folder history) (fits : call.Fits codec folder)
      (passes : (call.program codec quota).Passes folder crashed) (begun : crashed ≠ folder)
      (reopens : Reopens codec quota crashed reopened) : Reached reopened (history.after folder call)

/-- A ledger whose retained segments are one range of heights, with the bytes of its history, within the limits. -/
structure Sound (folder : LedgerDirectory) (history : History) : Prop where
  contiguous : folder.readIndex.segments.IsChain fun lower upper =>
    lower.firstHeight + lower.blockCount = upper.firstHeight
  range : ∃ low high, ∀ height, ((∃ segment ∈ folder.readIndex.segments,
      segment.firstHeight ≤ height ∧ height < segment.firstHeight + segment.blockCount) ↔
        low ≤ height ∧ height < high) ∧
    (low ≤ height ∧ height < high → ∃ block, history height = some block ∧ readBlock folder height = .ok (some block)) ∧
    (¬ (low ≤ height ∧ height < high) → readBlock folder height = .ok none)
  blocks : (folder.readIndex.segments.map Segment.blockCount).sum ≤ quota.maxBlocks
  bytes : (folder.readIndex.segments.map Segment.bytes).sum ≤ quota.maxBytes
  stored : ∀ segment ∈ folder.readIndex.segments,
    ∃ archive, folder.slots segment.slot = some archive ∧ segment = segmentOf codec segment.slot archive
  indexed : ∀ slot archive, folder.slots slot = some archive →
    slot < quota.slots ∧ segmentOf codec slot archive ∈ folder.readIndex.segments

/-- The blocks of an archive can be read, and besides them only what could be read before. -/
def Extends (folder : LedgerDirectory) (archive : Archive) (after : LedgerDirectory) : Prop :=
  ∀ height block, (archive.blockAt height = some block → readBlock after height = .ok (some block)) ∧
    (readBlock after height = .ok (some block) →
      archive.blockAt height = some block ∨ readBlock folder height = .ok (some block))

/-- What can be read after a call, in terms of what could be read before it. -/
def LedgerCall.Performed (folder after : LedgerDirectory) : LedgerCall τ → Prop
  | .append firstHeight blocks => Extends folder ⟨firstHeight, blocks⟩ after
  | .commitStaged blockCount => after.staged = none ∧ ∃ archive, folder.staged = some archive ∧
      blockCount ≤ archive.blocks.length ∧ Extends folder ⟨archive.firstHeight, archive.blocks.take blockCount⟩ after
  | .stage firstHeight blocks => after.staged = some ⟨firstHeight, blocks⟩ ∧ readBlock after = readBlock folder
  | .discardStaged => after.staged = none ∧ readBlock after = readBlock folder
  | .truncateFrom firstRemovedHeight => ∀ height, readBlock after height =
      if height < firstRemovedHeight then readBlock folder height else .ok none
  | .applyPrunePlan requested minimum _ => ∀ height, readBlock after height =
      if folder.prunes requested minimum height then .ok none else readBlock folder height

/-- A reopen finds the ledger before a call or after it, maybe with the staged file still there; the
call can then be repeated. -/
def Recovered [DecidableEq τ] (call : LedgerCall τ) (folder reopened : LedgerDirectory) : Prop :=
  let program := call.program codec quota
  reopened = folder ∨ reopened = program.left folder ∨ ∃ blockCount, call = .commitStaged blockCount ∧
      reopened = { program.left folder with staged := folder.staged } ∧
      program.outcome reopened = .ok () ∧ program.left reopened = program.left folder

end

section
variable (positive : 0 < quota.slots) (blocks : 0 < quota.maxBlocks) (bytes : 0 < quota.maxBytes)
include positive blocks bytes

theorem Reopening.recovering {current : LedgerDirectory} (reopening : Reopening codec quota crashed current)
    (recovering : Recovering codec quota placed staged crashed) : Recovering codec quota placed staged current := by
  induction reopening with
  | refl => exact recovering
  | tail _ passes ih => exact (open_completes positive blocks bytes ih).passes _ passes

theorem Reopens.eq_settled (reopens : Reopens codec quota crashed reopened)
    (recovering : Recovering codec quota placed staged crashed) : reopened = settled codec quota placed staged := by
  obtain ⟨_, reopening, -, rfl⟩ := reopens
  exact (open_completes positive blocks bytes (reopening.recovering positive blocks bytes recovering)).leaves

end

theorem limits_of_open (opens : (openWithDurability codec quota).outcome folder = .ok ()) :
    0 < quota.slots ∧ 0 < quota.maxBlocks ∧ 0 < quota.maxBytes := by
  rw [openWithDurability] at opens
  split at opens
  · cases opens
  · omega

theorem Reached.limits [DecidableEq τ] {history : History} (reached : Reached codec quota folder history) :
    0 < quota.slots ∧ 0 < quota.maxBlocks ∧ 0 < quota.maxBytes := by
  induction reached with
  | opened reopens =>
    obtain ⟨_, _, opens, _⟩ := reopens
    exact limits_of_open opens
  | refused _ _ _ ih | performed _ _ _ ih | forgotten _ _ ih | interrupted _ _ _ _ _ ih => exact ih

theorem ring_nil : Ring codec quota [] :=
  ⟨⟨nodup_nil, nofun, nofun, .nil⟩, .nil, .nil, rfl⟩

theorem recovering_empty : Recovering codec quota [] none .empty :=
  @Recovering.unindexed _ codec quota [] none [] none none ring_nil.toOnDisk .nil .nil (.inl nofun) rfl

section
variable {call : LedgerCall τ} {history : History}

/-- What a call makes of the archives in their slots and of the staged one. -/
def LedgerCall.Changes (codec : LedgerCodec τ) (quota : LedgerRetention) (placed : List Placed)
    (staged : Option Archive) (next : List Placed) (later : Option Archive) : LedgerCall τ → Prop
  | .append firstHeight blocks => later = staged ∧ Appends placed ⟨firstHeight, blocks⟩ next
  | .stage firstHeight blocks => next = placed ∧ later = some ⟨firstHeight, blocks⟩
  | .commitStaged blockCount => later = none ∧ ∃ archive, staged = some archive ∧ blockCount ≤ archive.blocks.length ∧
      (Appends placed ⟨archive.firstHeight, archive.blocks.take blockCount⟩ next ∨ next = placed ∧
          Holds (settled codec quota placed staged) archive.firstHeight (archive.blocks.take blockCount))
  | .discardStaged => next = placed ∧ later = none
  | .truncateFrom firstRemovedHeight => Cuttable codec firstRemovedHeight placed ∧
      next = cutAll firstRemovedHeight placed ∧ later = staged
  | .applyPrunePlan requested minimum _ => (pruned ⟨requested, minimum⟩ placed).length < 2 ^ 32 ∧
      next = unpruned ⟨requested, minimum⟩ placed ∧ later = staged

theorem cuttable_of_fits {firstRemovedHeight : Nat} (ring : Ring codec quota placed)
    (fits : (LedgerCall.truncateFrom firstRemovedHeight : LedgerCall τ).Fits codec
      (settled codec quota placed staged)) :
    Cuttable codec firstRemovedHeight placed := fun live member above below =>
  fits live.slot live.archive (filesOf_of_mem ring.slots member) above below

theorem call_effect [DecidableEq τ] (positive : 0 < quota.slots) (ring : Ring codec quota placed)
    (stagedFits : ∀ archive ∈ staged, Storable codec quota archive)
    (fits : call.Fits codec (settled codec quota placed staged)) :
    Effect codec quota (call.program codec quota) placed staged fun next later =>
      call.Changes codec quota placed staged next later := by
  cases call with
  | append _ _ => exact appendLocked_effect positive ring stagedFits fits
  | stage _ _ => exact stage_effect ring fits
  | commitStaged _ => exact commitStaged_effect positive ring stagedFits
  | discardStaged => exact discardStaged_effect ring
  | truncateFrom _ =>
    have cuttable := cuttable_of_fits ring fits
    exact (truncateFrom_effect positive ring stagedFits cuttable).mono fun _ _ changed => ⟨cuttable, changed⟩
  | applyPrunePlan _ _ planToken =>
    exact (applyPrunePlan_effect ring stagedFits fits planToken).discard

theorem blockAt_eq_some {archive : Archive} {height : Nat} {block : BlockBytes} : archive.blockAt height = some block ↔
      archive.firstHeight ≤ height ∧ archive.blocks[height - archive.firstHeight]? = some block := by
  rw [Archive.blockAt]
  split
  · next above => simp [above]
  · next below => simp [below]

theorem contentAt_prunes {requested minimum : Nat} (ring : Ring codec quota placed)
    (few : (pruned ⟨requested, minimum⟩ placed).length < 2 ^ 32) (staged : Option Archive) (height : Nat) :
    contentAt (unpruned ⟨requested, minimum⟩ placed) height =
      if (settled codec quota placed staged).prunes requested minimum height then none
      else contentAt placed height := by
  obtain ⟨plan, isPlan, built⟩ | ⟨_, _, _⟩ := @buildPrunePlan_eq _ codec quota _ ring.toOnDisk ⟨requested, minimum⟩
  · have same : (settled codec quota placed staged).prunes requested minimum height =
        plan.effectiveThroughHeight.any fun through => decide (height ≤ through) := by
      rw [LedgerDirectory.prunes]
      simp only [settled, LedgerDirectory.readIndex, getD_some, built]
      rfl
    rw [same, contentAt_unpruned ring.toOnDisk isPlan]
  · omega

theorem extends_of_holds {archive : Archive} (ring : Ring codec quota placed)
    (holds : Holds (settled codec quota placed staged) archive.firstHeight archive.blocks) :
    Extends (settled codec quota placed staged) archive (settled codec quota placed later) := by
  intro height block
  rw [blockAt_eq_some, readBlock_settled ring.toOnDisk, readBlock_settled ring.toOnDisk]
  refine ⟨fun isBlock => ?_, .inr⟩
  have found := holds _ block isBlock.2
  rw [Nat.add_sub_cancel' isBlock.1, readBlock_settled ring.toOnDisk] at found
  exact found

def Records (placed : List Placed) (history : History) : Prop :=
  ∀ height block, contentAt placed height = some block → history height = some block

section
variable (ring : Ring codec quota placed) (after : Ring codec quota next)
include ring after

theorem extends_of_appends {archive : Archive} (appends : Appends placed archive next) :
    Extends (settled codec quota placed staged) archive (settled codec quota next later) := by
  intro height block
  rw [readBlock_settled after.toOnDisk, readBlock_settled ring.toOnDisk, blockAt_eq_some]
  refine ⟨fun isBlock => congrArg _ (contentAt_appended after.toOnDisk appends isBlock.1 isBlock.2), fun found => ?_⟩
  rcases contentAt_of_appends ring.toOnDisk after.toOnDisk appends (Except.ok.inj found) with added | ⟨_, stood⟩
  · exact .inl added
  · exact .inr (congrArg _ stood)

theorem performed_of_changes (changed : call.Changes codec quota placed staged next later) :
    call.Performed (settled codec quota placed staged) (settled codec quota next later) := by
  have same : next = placed → readBlock (settled codec quota next later) =
      readBlock (settled codec quota placed staged) := by
    rintro rfl
    funext height
    rw [readBlock_settled ring.toOnDisk, readBlock_settled ring.toOnDisk]
  cases call with
  | append _ _ => exact extends_of_appends ring after changed.2
  | stage _ _ => exact ⟨changed.2, same changed.1⟩
  | commitStaged _ =>
    obtain ⟨gone, archive, isStaged, enough, appends | ⟨rfl, holds⟩⟩ := changed
    · exact ⟨gone, archive, isStaged, enough, extends_of_appends ring after appends⟩
    · exact ⟨gone, archive, isStaged, enough, extends_of_holds ring holds⟩
  | discardStaged => exact ⟨changed.2, same changed.1⟩
  | truncateFrom _ =>
    obtain ⟨cuttable, rfl, rfl⟩ := changed
    intro height
    rw [readBlock_settled after.toOnDisk, readBlock_settled ring.toOnDisk, contentAt_cutAll ring cuttable]
    split
    · rfl
    · rfl
  | applyPrunePlan _ _ _ =>
    obtain ⟨few, rfl, -⟩ := changed
    intro height
    rw [readBlock_settled after.toOnDisk, readBlock_settled ring.toOnDisk, contentAt_prunes ring few staged]
    split
    · rfl
    · rfl

theorem records_of_changes
    (changed : call.Changes codec quota placed staged next later) (records : Records placed history) :
    Records next (history.after (settled codec quota placed staged) call) := by
  have appended : ∀ archive, Appends placed archive next →
      Records next fun height => (archive.blockAt height).or (history height) := by
    intro archive appends height block found
    rcases contentAt_of_appends ring.toOnDisk after.toOnDisk appends found with added | ⟨below, stood⟩
    · simp [blockAt_eq_some.mpr added]
    · simp only [Archive.blockAt, if_neg (Nat.not_le.mpr below)]
      exact records height block stood
  cases call with
  | append firstHeight blocks => exact appended _ changed.2
  | stage firstHeight blocks => exact changed.1 ▸ records
  | commitStaged blockCount =>
    obtain ⟨-, archive, isStaged, -, appends | ⟨rfl, holds⟩⟩ := changed
    · simp only [isStaged]
      exact appended _ appends
    intro height block found
    simp only [History.after, settled, isStaged, bind_some]
    cases isBlock : (⟨archive.firstHeight, archive.blocks.take blockCount⟩ : Archive).blockAt height with
    | none => exact records height block found
    | some other =>
      have stands := ((@extends_of_holds _ _ _ _ _ none _ ring holds) height other).1 isBlock
      rw [readBlock_settled ring.toOnDisk, found] at stands
      exact (Except.ok.inj stands).symm
  | discardStaged => exact changed.1 ▸ records
  | truncateFrom _ =>
    obtain ⟨cuttable, rfl, rfl⟩ := changed
    intro height block found
    rw [contentAt_cutAll ring cuttable] at found
    split at found
    · next below => exact (if_pos below).trans (records height block found)
    · cases found
  | applyPrunePlan _ _ _ =>
    obtain ⟨few, rfl, -⟩ := changed
    intro height block found
    rw [contentAt_prunes ring few staged] at found
    split at found
    · cases found
    · next stays => exact (if_neg stays).trans (records height block found)

end

theorem refused_passes {α : Type} {program : LedgerProgram α} {fault : LedgerError}
    (refuses : Refuses program folder fault) (passes : program.Passes folder crashed) : crashed = folder := by
  rcases passes with same | absent
  · exact same
  · rw [refuses] at absent
    cases absent

section
variable {archive : Archive} {blockCount first : Nat} {blocks : List BlockBytes}

theorem retainedBytesMatch_of_holds (fits : first + blocks.length ≤ 2 ^ 32) (holds : Holds folder first blocks) :
    retainedBytesMatch folder folder.readIndex first blocks = .ok true := by
  induction blocks generalizing first with
  | nil => rfl
  | cons block rest ih =>
    rw [length_cons] at fits
    have isFirst : readBlockFromIndex folder folder.readIndex first = .ok (some block) := holds 0 block rfl
    have later : Holds folder (first + 1) rest := by
      intro offset other found
      have stands := holds (offset + 1) other found
      rwa [Nat.add_comm offset 1, ← Nat.add_assoc] at stands
    rw [retainedBytesMatch, if_neg (by omega), isFirst, ok_bind]
    simp only [ne_eq]
    exact ih (by omega) later

theorem commitStaged_repeats (ring : Ring codec quota next) (isStaged : staged = some archive)
    (counts : blockCount ≠ 0) (enough : blockCount ≤ archive.blocks.length)
    (appends : Appends placed ⟨archive.firstHeight, archive.blocks.take blockCount⟩ next) :
    Completes (fun _ => True) (commitStaged codec quota blockCount) (settled codec quota next staged) ()
      (settled codec quota next none) := by
  have length : (archive.blocks.take blockCount).length = blockCount := length_take_of_le enough
  have holds : Holds (settled codec quota next staged) archive.firstHeight (archive.blocks.take blockCount) := by
    intro offset block found
    have added := contentAt_appended ring.toOnDisk appends (Nat.le_add_right archive.firstHeight offset)
      ((congrArg _ (Nat.add_sub_cancel_left ..)).trans found)
    rw [readBlock_settled ring.toOnDisk, added]
  obtain ⟨-, _, slot, -, isKept⟩ := appends
  have ends : next.getLast?.map stop = some (archive.firstHeight + blockCount) := by
    rw [isKept, List.getLast?_concat, Option.map_some, Placed.stop, Placed.count, length]
    rfl
  have heights : archive.firstHeight + blockCount < 2 ^ 32 := by
    have fits := (ring.storable ⟨slot, ⟨archive.firstHeight, archive.blocks.take blockCount⟩⟩
      (by simp [isKept])).heights
    rwa [length] at fits
  have isNext := retainedNext_eq ring.toOnDisk
  rw [ends] at isNext
  have fits : checkedAdd 32 archive.firstHeight blockCount = some (archive.firstHeight + blockCount) := if_pos heights
  have same := retainedBytesMatch_of_holds (by omega) holds
  rw [commitStaged, if_neg counts]
  refine Completes.bind (.read trivial)
    (Completes.bind (.quiet (congrArg (Prod.mk _) (require_eq_ok.mpr isStaged)) trivial) ?_)
  rw [if_neg (Nat.not_lt.mpr enough)]
  refine Completes.bind (.quiet (congrArg (Prod.mk _) isNext) trivial) ?_
  rw [if_neg (by simp [counts]), if_pos fits]
  exact Completes.bind (.quiet (congrArg (Prod.mk _) same) trivial) (.change trivial trivial)

end

/-- Between calls the directory holds a ring of archives and their index, and nothing half done. -/
def AtRest (codec : LedgerCodec τ) (quota : LedgerRetention) (folder : LedgerDirectory) (history : History) : Prop :=
  ∃ placed staged, folder = settled codec quota placed staged ∧ Ring codec quota placed ∧
    (∀ archive ∈ staged, Storable codec quota archive) ∧ Records placed history

theorem Reached.atRest [DecidableEq τ] (reached : Reached codec quota folder history) :
    AtRest codec quota folder history := by
  have limits := reached.limits
  obtain ⟨positive, blocks, bytes⟩ := limits
  induction reached with
  | opened reopens =>
    exact ⟨[], none, reopens.eq_settled positive blocks bytes recovering_empty, ring_nil, nofun, nofun⟩
  | @refused _ _ _ _ _ fits fails ih =>
    obtain ⟨placed, staged, rfl, ring, stagedFits, records⟩ := ih
    rcases call_effect positive ring stagedFits fits with ⟨_, refuses⟩ | ⟨next, later, _, _, _, _, completes⟩
    · have same := refused_passes refuses (left_passes _ _)
      exact ⟨placed, staged, same, ring, stagedFits, records⟩
    · rw [completes.returns] at fails
      cases fails
  | @performed _ _ _ _ fits returns ih =>
    obtain ⟨placed, staged, rfl, ring, stagedFits, records⟩ := ih
    rcases call_effect positive ring stagedFits fits with ⟨_, refuses⟩ |
      ⟨next, later, _, after, nextFits, changed, completes⟩
    · rw [outcome, refuses] at returns
      cases returns
    · exact ⟨next, later, completes.leaves, after, nextFits, records_of_changes ring after changed records⟩
  | forgotten _ reopens ih =>
    obtain ⟨placed, staged, rfl, ring, stagedFits, records⟩ := ih
    exact ⟨placed, staged, reopens.eq_settled positive blocks bytes (recovering_settled ring staged), ring, stagedFits,
      records⟩
  | @interrupted _ crashed _ _ _ _ fits passes begun reopens ih =>
    obtain ⟨_, staged, rfl, ring, stagedFits, records⟩ := ih
    rcases call_effect positive ring stagedFits fits with ⟨_, refuses⟩ |
      ⟨next, later, _, after, nextFits, changed, completes⟩
    · exact absurd (refused_passes refuses passes) begun
    have recorded := records_of_changes ring after changed records
    rcases completes.passes crashed passes with same | published | published
    · exact absurd same begun
    · exact ⟨next, later, reopens.eq_settled positive blocks bytes published, after, nextFits, recorded⟩
    · exact ⟨next, staged, reopens.eq_settled positive blocks bytes published, after, stagedFits, recorded⟩

theorem AtRest.sound (atRest : AtRest codec quota folder history) : Sound codec quota folder history := by
  obtain ⟨placed, staged, rfl, ring, -, records⟩ := atRest
  obtain ⟨low, high, -, -, covered⟩ := covered_range ring.chained ring.filled
  have within := exceeds_eq_false.mp ring.within
  constructor
  · exact (List.isChain_map _).mpr ring.chained
  · refine ⟨low, high, fun height => ⟨?_, fun inside => ?_, fun outside => ?_⟩⟩
    · rw [← covered height]
      simp only [settled, LedgerDirectory.readIndex, Option.getD_some, indexFor_segments, List.mem_map,
        exists_exists_and_eq_and]
      rfl
    · obtain ⟨block, found⟩ := (contentAt_isSome ring.apart).mpr ((covered height).mpr inside)
      exact ⟨block, records height block found,
        (readBlock_settled ring.toOnDisk staged height).trans (congrArg _ found)⟩
    · rw [← covered height, ← contentAt_isSome ring.apart] at outside
      rw [readBlock_settled ring.toOnDisk]
      cases found : contentAt placed height with
      | none => rfl
      | some block => exact absurd ⟨block, found⟩ outside
  · exact within.1
  · exact within.2
  · intro segment member
    obtain ⟨live, isLive, rfl⟩ := mem_map.mp member
    exact ⟨live.archive, filesOf_of_mem ring.slots isLive, rfl⟩
  · intro slot archive found
    have member := mem_of_filesOf found
    exact ⟨ring.inRing _ member, mem_map_of_mem member⟩

theorem recovered_of_between [DecidableEq τ] (ring : Ring codec quota placed) (after : Ring codec quota next)
    (changed : call.Changes codec quota placed staged next later)
    (returns : (call.program codec quota).outcome (settled codec quota placed staged) = .ok ())
    (leaves : (call.program codec quota).left (settled codec quota placed staged) = settled codec quota next later) :
    Recovered codec quota call (settled codec quota placed staged) (settled codec quota next staged) := by
  rw [Recovered, leaves]
  cases call with
  | append _ _ =>
    obtain ⟨rfl, -⟩ := changed
    exact .inr (.inl rfl)
  | stage _ _ =>
    obtain ⟨rfl, -⟩ := changed
    exact .inl rfl
  | commitStaged blockCount =>
    obtain ⟨rfl, _, isStaged, enough, appends | ⟨rfl, -⟩⟩ := changed
    · have counts : blockCount ≠ 0 := by
        rintro rfl
        cases returns
      have repeats := commitStaged_repeats after isStaged counts enough appends
      exact .inr (.inr ⟨blockCount, rfl, rfl, repeats.returns, repeats.leaves⟩)
    · exact .inl rfl
  | discardStaged =>
    obtain ⟨rfl, -⟩ := changed
    exact .inl rfl
  | truncateFrom _ =>
    obtain ⟨-, -, rfl⟩ := changed
    exact .inr (.inl rfl)
  | applyPrunePlan _ _ _ =>
    obtain ⟨-, -, rfl⟩ := changed
    exact .inr (.inl rfl)

end

/-- In every state of every run the ledger is sound, and a reopen after any call, done or cut short,
finds the ledger before it or after it. -/
theorem ledger_crash_safe [DecidableEq τ] {history : History} (reached : Reached codec quota folder history) :
    Sound codec quota folder history ∧ (∀ reopened, Reopens codec quota folder reopened → reopened = folder) ∧
    ∀ call : LedgerCall τ, call.Fits codec folder → ((call.program codec quota).outcome folder = .ok () →
        call.Performed folder ((call.program codec quota).left folder)) ∧
      ∀ crashed current, (call.program codec quota).Passes folder crashed →
        Reopening codec quota crashed current → (openWithDurability codec quota).outcome current = .ok () ∧
          Recovered codec quota call folder ((openWithDurability codec quota).left current) := by
  obtain ⟨positive, blocks, bytes⟩ := reached.limits
  have atRest := reached.atRest
  refine ⟨atRest.sound, ?_, ?_⟩
  · obtain ⟨placed, staged, rfl, ring, -, -⟩ := atRest
    exact fun reopened reopens => reopens.eq_settled positive blocks bytes (recovering_settled ring staged)
  intro call fits
  obtain ⟨placed, staged, rfl, ring, stagedFits, _⟩ := atRest
  have opens : ∀ {placed staged crashed current}, Recovering codec quota placed staged crashed →
      Reopening codec quota crashed current → _ := fun recovering reopening =>
    open_completes positive blocks bytes (reopening.recovering positive blocks bytes recovering)
  rcases call_effect positive ring stagedFits fits with ⟨_, refuses⟩ | ⟨_, _, _, after, -, changed, completes⟩
  · refine ⟨fun returns => ?_, fun crashed current passes reopening => ?_⟩
    · rw [outcome, refuses] at returns
      cases returns
    · rw [refused_passes refuses passes] at reopening
      have back := opens (recovering_settled ring staged) reopening
      exact ⟨back.returns, .inl back.leaves⟩
  refine ⟨fun _ => ?_, fun crashed current passes reopening => ?_⟩
  · rw [completes.leaves]
    exact performed_of_changes ring after changed
  rcases completes.passes crashed passes with rfl | forward | forward
  · have back := opens (recovering_settled ring staged) reopening
    exact ⟨back.returns, .inl back.leaves⟩
  · have ahead := opens forward reopening
    exact ⟨ahead.returns, .inr (.inl (ahead.leaves.trans completes.leaves.symm))⟩
  · have ahead := opens forward reopening
    rw [ahead.leaves]
    exact ⟨ahead.returns, recovered_of_between ring after changed completes.returns completes.leaves⟩

/-- Records that do not compress, behind the magic, the manifest and the frame of a container. -/
def containerCodec : LedgerCodec Unit :=
  ⟨fun archive => 290 + (archive.blocks.map fun block => 4 + block.length).sum, fun _ _ => ()⟩

def twoSlots : LedgerRetention := ⟨2, 100_000, 2⟩

def opened : LedgerDirectory := (openWithDurability containerCodec twoSlots).left .empty

def appended : LedgerDirectory :=
  ((LedgerCall.append 5 [[1], [2]]).program containerCodec twoSlots).left opened

theorem reached_appended : Reached containerCodec twoSlots appended
    (History.after (fun _ => none) opened (.append 5 [[1], [2]] : LedgerCall Unit)) :=
  .performed (.opened ⟨.empty, .refl, rfl, rfl⟩) (by decide : 5 + [[1], [2]].length < 2 ^ 32) rfl

theorem ledger_crash_safe_two_blocks : ∃ history, Reached containerCodec twoSlots appended history ∧
    readBlock appended 6 = .ok (some [2]) ∧ Sound containerCodec twoSlots appended history ∧
    ∀ crashed current, ((LedgerCall.append 7 [[3]]).program containerCodec twoSlots).Passes appended crashed →
      Reopening containerCodec twoSlots crashed current →
        (openWithDurability containerCodec twoSlots).outcome current = .ok () := by
  have safe := ledger_crash_safe reached_appended
  refine ⟨_, reached_appended, rfl, safe.1, fun crashed current passes reopening => ?_⟩
  exact ((safe.2.2 (.append 7 [[3]]) (by decide : 7 + [[3]].length < 2 ^ 32)).2 crashed current passes reopening).1

/-- The index is no more than a cache: one that is gone, or empty, or names a file that is not there, is rebuilt from
the files. -/
theorem lost_index_is_rebuilt [DecidableEq τ] {history : History} (reached : Reached codec quota folder history)
    (index : Option LedgerIndex) (lost : ∀ found ∈ index, found.segments = [] ∨
      ∃ segment ∈ found.segments, segment ∉ folder.readIndex.segments)
    (reopening : Reopening codec quota { folder with index } crashed) :
    (openWithDurability codec quota).outcome crashed = .ok () ∧
      (openWithDurability codec quota).left crashed = folder := by
  obtain ⟨positive, blocks, bytes⟩ := reached.limits
  obtain ⟨placed, staged, rfl, ring, -, -⟩ := reached.atRest
  have kept : keep codec quota placed = placed := by
    cases placed with
    | nil => rfl
    | cons _ _ => simp only [keep, ring.within, Bool.false_eq_true, if_false]
  have recovering : Recovering codec quota placed staged { settled codec quota placed staged with index } :=
    .unindexed ring.toOnDisk ring.chained ring.ordered (.inl lost) kept
  have completes := open_completes positive blocks bytes (reopening.recovering positive blocks bytes recovering)
  exact ⟨completes.returns, completes.leaves⟩

theorem lost_index_is_rebuilt_two_blocks :
    (openWithDurability containerCodec twoSlots).outcome { appended with index := none } = .ok () ∧
      (openWithDurability containerCodec twoSlots).left { appended with index := none } = appended :=
  lost_index_is_rebuilt reached_appended none nofun .refl

def atTopHeight : LedgerDirectory :=
  ((LedgerCall.append (2 ^ 32 - 1) [[1]]).program containerCodec twoSlots).left opened

def truncatedAtTop : LedgerDirectory :=
  ((LedgerCall.truncateFrom (2 ^ 32 - 1)).program containerCodec twoSlots).left atTopHeight

/-- A block at the last height is accepted; after a truncation the ledger does not open any more. -/
theorem top_height_locks_ledger :
    ((LedgerCall.append (2 ^ 32 - 1) [[1]]).program containerCodec twoSlots).outcome opened = .ok () ∧
    atTopHeight.readIndex.segments = [⟨2 ^ 32 - 1, 1, 0, 295⟩] ∧ readBlock atTopHeight (2 ^ 32 - 1) = .ok none ∧
    ((LedgerCall.truncateFrom (2 ^ 32 - 1)).program containerCodec twoSlots).outcome atTopHeight =
      .error (.invalid "height overflow") ∧
    (openWithDurability containerCodec twoSlots).outcome truncatedAtTop = .error (.invalid "height overflow") := by
  refine ⟨rfl, rfl, rfl, rfl, rfl⟩

end Rbtc.Ledger
