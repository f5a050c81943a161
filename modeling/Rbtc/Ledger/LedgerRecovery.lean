import Rbtc.Ledger.LedgerSteps

/-! The directories that a crash can leave, and the ledger a reopen makes of each of them. -/

namespace Rbtc.Ledger

open Foundation Stepwise Completes Placed Option Function

variable {τ : Type} {codec : LedgerCodec τ} {quota : LedgerRetention}
  {disk before stale placed : List Placed} {folder : LedgerDirectory} {staged : Option Archive} {height : Nat}

section
variable (codec quota)

/-- The index names nothing, something no longer there, or the first part of the chain. -/
def IndexBehind (disk : List Placed) (index : Option LedgerIndex) : Prop :=
  (∀ found ∈ index, found.segments = [] ∨ ∃ segment ∈ found.segments, segment ∉ disk.map (Placed.segment codec)) ∨
    ∃ chain last rest, disk = chain ++ last :: rest ∧ index = some (indexOf codec quota (chain ++ [last]))

/-- A truncation under way: files are cut one by one, and the index reaches above the height until all
are. -/
structure Truncating (before : List Placed) (staged : Option Archive) (height : Nat) (folder : LedgerDirectory) :
    Prop where
  partly : PartlyCut height before folder.slots
  index : ∃ index, folder.index = some index ∧ (index.Reaches (height + 1) ∨
    index = indexOf codec quota (cutAll height before) ∧ folder.slots = filesOf (cutAll height before))
  intent : folder.truncateIntent = some height
  others : folder.staged = staged ∧ folder.pruneIntent = none ∧ folder.policy = some quota

/-- The index is written; stale files, the intent of a prune or an older policy may remain. -/
def unswept (stale placed : List Placed) (staged : Option Archive)
    (prune : Option LedgerPruneIntent) (policy : Option LedgerRetention) : LedgerDirectory :=
  { settled codec quota placed staged with slots := filesOf (stale ++ placed), pruneIntent := prune, policy }

/-- The directories from which a reopen goes on to one ledger. -/
inductive Recovering (placed : List Placed) (staged : Option Archive) : LedgerDirectory → Prop
  | unswept {stale : List Placed} {prune : Option LedgerPruneIntent} {policy : Option LedgerRetention}
      (ring : Ring codec quota placed) (onDisk : OnDisk codec quota (stale ++ placed))
      (needed : placed = [] → stale = []) (idle : ∀ intent ∈ prune, pruned intent placed = []) :
      Recovering placed staged (Ledger.unswept codec quota stale placed staged prune policy)
  | unindexed {disk : List Placed} {index : Option LedgerIndex} {policy : Option LedgerRetention}
      (onDisk : OnDisk codec quota disk) (chained : Chained disk)
      (ordered : disk.IsChain fun lower upper => upper.slot = (lower.slot + 1) % quota.slots)
      (behind : IndexBehind codec quota disk index) (keeps : keep codec quota disk = placed) :
      Recovering placed staged ⟨filesOf disk, index, staged, none, none, policy⟩
  | pruning {before : List Placed} {intent : LedgerPruneIntent} (ring : Ring codec quota before)
      (floor : intent.minimumBlocksPreserved ≠ 0)
      (few : (pruned intent before).length < 2 ^ 32) (leaves : unpruned intent before = placed) :
      Recovering placed staged { settled codec quota before staged with pruneIntent := some intent }
  | truncating {before : List Placed} {height : Nat} {folder : LedgerDirectory}
      (ring : Ring codec quota before) (cuttable : Cuttable codec height before)
      (truncating : Truncating codec quota before staged height folder)
      (leaves : cutAll height before = placed) : Recovering placed staged folder

end

theorem recovering_settled (ring : Ring codec quota placed) (staged : Option Archive) :
    Recovering codec quota placed staged (settled codec quota placed staged) :=
  @Recovering.unswept _ codec quota placed staged [] none (some quota) ring ring.toOnDisk (fun _ => rfl) nofun

section
variable (onDisk : OnDisk codec quota disk) (chained : Chained disk)
  (ordered : disk.IsChain fun lower upper => upper.slot = (lower.slot + 1) % quota.slots)
include onDisk chained ordered

theorem ring_of_suffix (suffix : placed <:+ disk) (within : exceeds (placed.map (segment codec)) quota = false) :
    Ring codec quota placed := by
  obtain ⟨_, rfl⟩ := suffix
  exact ⟨onDisk.sublist (List.sublist_append_right ..), (List.isChain_append.mp chained).2.1,
    (List.isChain_append.mp ordered).2.1, within⟩

theorem ring_keep : Ring codec quota (keep codec quota disk) := by
  refine ring_of_suffix onDisk chained ordered (keep_suffix disk) ?_
  rw [← trim_map]
  exact trim_not_exceeds quota _

end

theorem ring_unpruned (ring : Ring codec quota before) (intent : LedgerPruneIntent) :
    Ring codec quota (unpruned intent before) := by
  have suffix : unpruned intent before <:+ before := List.drop_suffix ..
  refine ring_of_suffix ring.toOnDisk ring.chained ring.ordered suffix ?_
  obtain ⟨blocks, bytes⟩ := exceeds_eq_false.mp ring.within
  rw [exceeds_eq_false]
  simp only [List.map_map] at blocks bytes ⊢
  exact ⟨le_trans ((suffix.sublist.map _).sum_le_sum fun _ _ => Nat.zero_le _) blocks,
    le_trans ((suffix.sublist.map _).sum_le_sum fun _ _ => Nat.zero_le _) bytes⟩

theorem keep_ne_nil (onDisk : OnDisk codec quota disk) (some : disk ≠ []) : keep codec quota disk ≠ [] := by
  obtain ⟨front, last, rfl⟩ := List.eq_nil_or_concat' disk |>.resolve_left some
  have isLast : last ∈ front ++ [last] := by simp
  have storable := onDisk.storable last isLast
  obtain ⟨_, -, trimmed⟩ := @trim_concat quota (last.segment codec) storable.blocks storable.bytes
    (front.map (segment codec))
  rw [← List.map_singleton, ← List.map_append, trim_map] at trimmed
  intro nothing
  rw [nothing] at trimmed
  simp at trimmed

theorem recoveredIndex_unswept (positive : 0 < quota.slots) (ring : Ring codec quota placed)
    (onDisk : OnDisk codec quota (stale ++ placed)) (needed : placed = [] → stale = [])
    (files : folder.slots = filesOf (stale ++ placed))
    (indexed : folder.index = some (indexOf codec quota placed)) :
    recoveredIndex codec quota folder = indexOf codec quota placed := by
  have chosen : chosenChain codec quota folder = placed.map (segment codec) := by
    rcases List.eq_nil_or_concat' placed with rfl | ⟨_, _, rfl⟩
    · rw [needed rfl] at onDisk files
      refine chosenChain_of_unindexed onDisk ring.chained files ?_
      rintro _ isIndex
      rw [indexed] at isIndex
      cases isIndex
      exact .inl rfl
    · rw [← List.append_assoc] at onDisk files
      exact chosenChain_of_indexed positive onDisk ring.chained files indexed
  rw [recoveredIndex_eq, chosen, trim_eq_self ring.within]

theorem recoveredIndex_behind (positive : 0 < quota.slots) (onDisk : OnDisk codec quota disk)
    (chained : Chained disk) (files : folder.slots = filesOf disk)
    (behind : IndexBehind codec quota disk folder.index) : recoveredIndex codec quota folder =
      indexOf codec quota (keep codec quota disk) := by
  have chosen : chosenChain codec quota folder = disk.map (segment codec) := by
    rcases behind with unusable | ⟨chain, last, rest, rfl, indexed⟩
    · exact chosenChain_of_unindexed onDisk chained files unusable
    · rw [← List.nil_append (chain ++ last :: rest), ← List.append_assoc] at onDisk files
      exact chosenChain_of_indexed positive onDisk chained files indexed
  rw [recoveredIndex_eq, chosen, trim_map]

theorem stop_le_of_mem_cutAll {archive : Placed} (member : archive ∈ cutAll height before) : archive.stop ≤ height := by
  obtain ⟨placed, isPlaced, rfl⟩ := List.mem_map.mp member
  have below : placed.first < height := by
    simpa using List.mem_takeWhile_imp isPlaced
  simp only [stop, first, count, cut, List.length_take] at below ⊢
  omega

section
variable (positive : 0 < quota.slots) (ring : Ring codec quota before)
  (cuttable : Cuttable codec height before) (truncating : Truncating codec quota before staged height folder)
include positive ring cuttable truncating

theorem Truncating.recoveredIndex_eq
    (done : folder.slots = filesOf (cutAll height before)) : recoveredIndex codec quota folder =
      indexOf codec quota (cutAll height before) := by
  have left := ring.cutAll cuttable
  obtain ⟨index, isIndex, ⟨_, last, ends, above⟩ | ⟨final, _⟩⟩ := truncating.index
  · have chosen : chosenChain codec quota folder = (cutAll height before).map (segment codec) := by
      refine chosenChain_of_unindexed left.toOnDisk left.chained done ?_
      intro found isFound
      rw [isIndex] at isFound
      cases isFound
      refine .inr ⟨last, ends ▸ by simp, fun member => ?_⟩
      obtain ⟨_, isArchive, rfl⟩ := List.mem_map.mp member
      have below := stop_le_of_mem_cutAll isArchive
      exact absurd (Nat.lt_of_lt_of_le (Nat.lt_succ_self height) above) (Nat.not_lt.mpr below)
    rw [Ledger.recoveredIndex_eq, chosen, trim_eq_self left.within]
  · rw [final] at isIndex
    exact @recoveredIndex_unswept _ _ _ [] _ _ positive left left.toOnDisk (fun _ => rfl) done isIndex

theorem Truncating.recoverIndex : Truncating codec quota before staged height
      { folder with index := some (recoveredIndex codec quota folder) } := by
  refine ⟨truncating.partly, ⟨_, rfl, ?_⟩, truncating.intent, truncating.others⟩
  by_cases done : ∀ placed ∈ standing folder.slots before, placed.stop ≤ height
  · have files := truncating.partly.files_eq_cutAll ring.toOnDisk done
    exact .inr ⟨truncating.recoveredIndex_eq positive ring cuttable files, files⟩
  push Not at done
  obtain ⟨archive, stands, above⟩ := done
  have onDisk := truncating.partly.onDisk ring.toOnDisk cuttable
  have files := truncating.partly.files_eq ring.toOnDisk cuttable
  refine .inl (recoveredIndex_reaches onDisk files ⟨archive, stands, above⟩ ?_)
  intro found isFound
  obtain ⟨index, isIndex, reaches | ⟨_, cutFiles⟩⟩ := truncating.index
  · rw [isIndex] at isFound
    cases isFound
    exact reaches
  have isCut : archive ∈ cutAll height before := by
    have found := filesOf_of_mem onDisk.slots stands
    rw [← files, cutFiles] at found
    exact mem_of_filesOf found
  exact absurd above (Nat.not_lt.mpr (stop_le_of_mem_cutAll isCut))

end

def cutSlot (height : Nat) (folder : LedgerDirectory) (slot : Nat) : LedgerDirectory :=
  { folder with slots := update folder.slots slot ((folder.slots slot).bind (cutFile height)) }

theorem cutSlot_slots (folder : LedgerDirectory) (slot other : Nat) : (cutSlot height folder slot).slots other =
    if other = slot then (folder.slots slot).bind (cutFile height) else folder.slots other :=
  update_apply ..

theorem cutTwice (file : Option Archive) :
    (file.bind (cutFile height)).bind (cutFile height) = file.bind (cutFile height) := by
  rw [bind_assoc]
  exact congrArg _ (funext cutFile_cutFile)

theorem foldl_cutSlot (height : Nat) (slots : List Nat) (folder : LedgerDirectory) :
    slots.foldl (cutSlot height) folder = { folder with
      slots := fun slot => if slot ∈ slots then (folder.slots slot).bind (cutFile height) else folder.slots slot } := by
  induction slots generalizing folder with
  | nil => simp
  | cons first _ ih =>
    rw [List.foldl_cons, ih]
    rw [cutSlot]
    simp only [LedgerDirectory.mk.injEq, and_true]
    funext slot
    by_cases same : slot = first
    · subst same
      simp [cutTwice]
    · simp [same]

theorem Truncating.cutSlot (ring : Ring codec quota before)
    (truncating : Truncating codec quota before staged height folder) (slot : Nat) :
    Truncating codec quota before staged height (cutSlot height folder slot) := by
  refine ⟨fun other => ?_, ?_, truncating.intent, truncating.others⟩
  · rw [cutSlot_slots]
    split
    · next same =>
      rcases truncating.partly other with whole | isCut
      · rw [← same, whole]
        exact .inr rfl
      · rw [← same, isCut, cutTwice]
        exact .inr rfl
    · exact truncating.partly other
  · obtain ⟨index, isIndex, reaches | ⟨final, files⟩⟩ := truncating.index
    · exact ⟨index, isIndex, .inl reaches⟩
    refine ⟨index, isIndex, .inr ⟨final, ?_⟩⟩
    rw [Ledger.cutSlot, files]
    refine update_eq_iff.mpr ⟨?_, fun _ _ => rfl⟩
    rw [filesOf_cutAll ring.toOnDisk, cutTwice]

theorem cutSlot_eq_self {slot : Nat} (same : (folder.slots slot).bind (cutFile height) = folder.slots slot) :
    cutSlot height folder slot = folder := by
  rw [cutSlot, same, update_eq_self]

theorem truncateSlot_completes (ring : Ring codec quota before) (cuttable : Cuttable codec height before)
    (truncating : Truncating codec quota before staged height folder) (slot : Nat) :
    Completes (Truncating codec quota before staged height) (truncateSlot codec height slot) folder ()
      (cutSlot height folder slot) := by
  have after := truncating.cutSlot ring slot
  refine (read truncating).bind ?_
  cases found : folder.slots slot with
  | none =>
    rw [cutSlot_eq_self (by rw [found, bind_none])]
    exact .pure truncating
  | some archive =>
    have onDisk := truncating.partly.onDisk ring.toOnDisk cuttable
    have stands : ⟨slot, archive⟩ ∈ standing folder.slots before := by
      rw [truncating.partly.files_eq ring.toOnDisk cuttable] at found
      exact mem_of_filesOf found
    have ends : checkedAdd 32 archive.firstHeight archive.blocks.length =
        some (archive.firstHeight + archive.blocks.length) := if_pos (onDisk.storable _ stands).heights
    dsimp only
    rw [ends]
    refine (lift truncating).bind ?_
    by_cases gone : height ≤ archive.firstHeight
    · have removed : cutSlot height folder slot =
          { folder with slots := update folder.slots slot none } := by
        rw [cutSlot, found, bind_some, cutFile, if_neg (Nat.not_lt.mpr gone)]
      rw [if_pos gone, removed]
      exact .change truncating (removed ▸ after)
    rw [if_neg gone]
    have kept : cutFile height archive = some (cut height archive) := if_pos (Nat.lt_of_not_le gone)
    by_cases inside : height < archive.firstHeight + archive.blocks.length
    · have original : ⟨slot, archive⟩ ∈ before := by
        rcases truncating.partly slot with whole | isCut
        · exact mem_of_filesOf (whole ▸ found)
        have member : ⟨slot, archive⟩ ∈ cutAll height before := by
          rw [isCut, ← filesOf_cutAll ring.toOnDisk] at found
          exact mem_of_filesOf found
        exact absurd inside (Nat.not_lt.mpr (stop_le_of_mem_cutAll member))
      have smaller := cuttable _ original (Nat.lt_of_not_le gone) inside
      have shortened : encodeArchive codec archive.firstHeight
          (archive.blocks.take (height - archive.firstHeight)) =
            .ok (cut height archive, codec.fileBytes (cut height archive)) :=
        encodeArchive_take (onDisk.storable _ stands).encoded (Nat.sub_pos_of_lt (Nat.lt_of_not_le gone)) smaller
      have published : cutSlot height folder slot =
          { folder with slots := update folder.slots slot (some (cut height archive)) } := by
        rw [cutSlot, found, bind_some, kept]
      rw [if_pos inside, published, shortened]
      exact (lift truncating).bind (.change truncating (published ▸ after))
    · have whole := cut_eq_self (Nat.le_of_not_lt inside)
      rw [if_neg inside, cutSlot_eq_self (by rw [found, bind_some, kept, whole])]
      exact .pure truncating

theorem recoverIndex_completes {property : LedgerDirectory → Prop} {index : LedgerIndex} (here : property folder)
    (recovered : recoveredIndex codec quota folder = index)
    (there : property { folder with index := some index }) :
    Completes property (recoverIndex codec quota) folder () { folder with index := some index } := by
  refine (read here).bind ?_
  rw [recovered]
  exact .change here there

theorem clearTruncateIntent_completes {property : LedgerDirectory → Prop} (here : property folder)
    (intent : folder.truncateIntent = some height) (there : property { folder with truncateIntent := none }) :
    Completes property clearTruncateIntent folder () { folder with truncateIntent := none } := by
  refine (read here).bind ?_
  rw [intent]
  exact .change here there

section
variable (positive : 0 < quota.slots) (ring : Ring codec quota before) (cuttable : Cuttable codec height before)
  (truncating : Truncating codec quota before staged height folder)
include positive ring cuttable truncating

theorem applyTruncation_completes :
    Completes (Truncating codec quota before staged height) (applyTruncation codec quota height) folder ()
      { settled codec quota (cutAll height before) staged with truncateIntent := some height } := by
  have loop : Completes (Truncating codec quota before staged height)
      ((List.range quota.slots).forM (truncateSlot codec height)) folder ()
      ((List.range quota.slots).foldl (cutSlot height) folder) :=
    forM (fun slot _ _ under => truncateSlot_completes ring cuttable under slot) truncating
  have cutFiles : (List.range quota.slots).foldl (cutSlot height) folder =
      { folder with slots := filesOf (cutAll height before) } := by
    rw [foldl_cutSlot]
    congr 1
    funext slot
    rw [filesOf_cutAll ring.toOnDisk]
    split
    · rcases truncating.partly slot with whole | isCut
      · rw [whole]
      · rw [isCut, cutTwice]
    rename_i outside
    have nothing := filesOf_eq_none_of_le ring.toOnDisk (Nat.le_of_not_lt (mt List.mem_range.mpr outside))
    rcases truncating.partly slot with whole | isCut
    · rw [whole, nothing, bind_none]
    · exact isCut
  rw [cutFiles] at loop
  have cutState := loop.there
  refine loop.bind ?_
  have index := cutState.recoveredIndex_eq positive ring cuttable rfl
  have final : { settled codec quota (cutAll height before) staged with truncateIntent := some height } =
      { folder with
        slots := filesOf (cutAll height before)
        index := some (recoveredIndex codec quota { folder with slots := filesOf (cutAll height before) }) } := by
    obtain ⟨isStaged, isPrune, isPolicy⟩ := truncating.others
    rw [index, settled]
    simp [isStaged, isPrune, isPolicy, truncating.intent]
  rw [final]
  exact recoverIndex_completes cutState rfl (cutState.recoverIndex positive ring cuttable)

theorem recoverTruncation_completes :
    Completes (Recovering codec quota (cutAll height before) staged) (recoverTruncation codec quota) folder ()
      (settled codec quota (cutAll height before) staged) := by
  have within : ∀ current, Truncating codec quota before staged height current →
      Recovering codec quota (cutAll height before) staged current :=
    fun current under => .truncating ring cuttable under rfl
  have atRest := recovering_settled (ring.cutAll cuttable) staged
  have applies := (applyTruncation_completes positive ring cuttable truncating).mono within
  refine (read applies.here).bind ?_
  rw [truncating.intent]
  exact applies.bind (clearTruncateIntent_completes applies.there rfl atRest)

end

variable {prune : Option LedgerPruneIntent} {policy : Option LedgerRetention}
  {intent : LedgerPruneIntent}

section
variable {property : LedgerDirectory → Prop}

theorem clearPruneIntent_completes (here : property folder)
    (there : property { folder with pruneIntent := none }) :
    Completes property clearPruneIntent folder () { folder with pruneIntent := none } := by
  refine (read here).bind ?_
  cases found : folder.pruneIntent with
  | none =>
    have same : { folder with pruneIntent := none } = folder := by
      rw [← found]
    rw [same]
    exact .pure here
  | some _ => exact .change here there

theorem readIndex_completes {index : LedgerIndex} (here : property folder)
    (indexed : folder.index = some index) : Completes property readIndex folder index folder := by
  refine (read here).bind ?_
  rw [LedgerDirectory.readIndex, indexed]
  exact .pure here

theorem applyPruning_idle (here : property folder) (onDisk : OnDisk codec quota placed)
    (indexed : folder.index = some (indexOf codec quota placed))
    (nothing : pruned intent placed = []) :
    Completes property (applyPruning quota intent.requestedThroughHeight intent.minimumBlocksPreserved) folder ()
    folder := by
  refine (readIndex_completes here indexed).bind ?_
  obtain ⟨plan, isPlan, planned⟩ | ⟨many, _⟩ := buildPrunePlan_eq onDisk intent
  · have removed : plan.segmentsRemoved = 0 := by rw [isPlan.removed, nothing, List.length_nil]
    rw [planned]
    refine (lift here).bind ?_
    rw [if_pos removed]
    exact .pure here
  · rw [nothing] at many
    exact absurd many (by simp)

section
variable (ring : Ring codec quota placed) (onDisk : OnDisk codec quota (stale ++ placed))
  (needed : placed = [] → stale = [])
include ring onDisk needed

theorem cleanup_unswept (idle : ∀ intent ∈ prune, pruned intent placed = []) :
    Completes (Recovering codec quota placed staged)
      (cleanupUnindexedSlotsLocked quota (indexOf codec quota placed))
      (unswept codec quota stale placed staged prune policy) ()
      (unswept codec quota [] placed staged prune policy) := by
  refine (cleanup_completes onDisk rfl).mono ?_
  rintro _ ⟨_, sub, rfl⟩
  refine .unswept ring (onDisk.sublist (sub.append_right placed)) (fun nothing => ?_) idle
  rw [needed nothing] at sub
  exact List.sublist_nil.mp sub

theorem sweep_completes : Completes (Recovering codec quota placed staged)
      (readIndex >>= fun index => cleanupUnindexedSlotsLocked quota index >>= fun _ => persistRetentionPolicy quota)
      (unswept codec quota stale placed staged none policy) () (settled codec quota placed staged) := by
  have sweeps := @cleanup_unswept _ codec quota _ _ staged none policy ring onDisk needed nofun
  refine (readIndex_completes sweeps.here rfl).bind (sweeps.bind ?_)
  refine (read sweeps.there).bind ?_
  split
  · next same =>
    have settles : unswept codec quota [] placed staged none policy = settled codec quota placed staged := by
      rw [show policy = some quota from same]
      rfl
    exact settles ▸ .pure sweeps.there
  · exact .change sweeps.there (recovering_settled ring staged)

variable (idle : ∀ intent ∈ prune, pruned intent placed = [])
include idle

theorem recoverPruning_unswept : Completes (Recovering codec quota placed staged) (recoverPruning quota)
      (unswept codec quota stale placed staged prune policy) ()
      (unswept codec quota stale placed staged none policy) := by
  have here : Recovering codec quota placed staged (unswept codec quota stale placed staged prune policy) :=
    .unswept ring onDisk needed idle
  have there : Recovering codec quota placed staged (unswept codec quota stale placed staged none policy) :=
    .unswept ring onDisk needed nofun
  refine (read here).bind ?_
  cases prune with
  | none => exact .pure here
  | some intent =>
    exact (applyPruning_idle here ring.toOnDisk rfl (idle intent rfl)).bind (clearPruneIntent_completes here there)

theorem open_unswept : Completes (Recovering codec quota placed staged)
      (recoverTruncation codec quota >>= fun _ => recoverPruning quota >>= fun _ =>
        readIndex >>= fun index => cleanupUnindexedSlotsLocked quota index >>= fun _ => persistRetentionPolicy quota)
      (unswept codec quota stale placed staged prune policy) () (settled codec quota placed staged) := by
  have pruning := @recoverPruning_unswept _ codec quota _ _ staged prune policy ring onDisk needed idle
  have untruncated : Completes (Recovering codec quota placed staged) (recoverTruncation codec quota)
      (unswept codec quota stale placed staged prune policy) ()
      (unswept codec quota stale placed staged prune policy) := (read pruning.here).bind (.pure pruning.here)
  exact untruncated.bind (pruning.bind (sweep_completes ring onDisk needed))

end

theorem indexFor_drop (floor : intent.minimumBlocksPreserved ≠ 0) {removed : Nat}
    (count : removed = (pruned intent before).length) :
    { indexOf codec quota before with segments := (before.map (segment codec)).drop removed } =
    indexOf codec quota (unpruned intent before) := by
  rw [indexOf, indexOf, indexFor, indexFor, List.getLast?_map, List.getLast?_map, unpruned_getLast? floor, unpruned,
    List.map_drop, count]

theorem applyPruning_completes (ring : Ring codec quota before) (floor : intent.minimumBlocksPreserved ≠ 0)
    (few : (pruned intent before).length < 2 ^ 32) (leaves : unpruned intent before = placed) :
    Completes (Recovering codec quota placed staged)
      (applyPruning quota intent.requestedThroughHeight intent.minimumBlocksPreserved)
      { settled codec quota before staged with pruneIntent := some intent } ()
      (unswept codec quota [] placed staged (some intent) (some quota)) := by
  have here : Recovering codec quota placed staged
      { settled codec quota before staged with pruneIntent := some intent } := .pruning ring floor few leaves
  have after := ring_unpruned ring intent
  have whole := pruned_append_unpruned intent before
  have idle := @pruned_unpruned intent before
  have last := @unpruned_getLast? intent floor before
  rw [leaves] at after whole idle last
  have onDisk : OnDisk codec quota (pruned intent before ++ placed) := whole.symm ▸ ring.toOnDisk
  refine (readIndex_completes here rfl).bind ?_
  obtain ⟨_, isPlan, planned⟩ | ⟨many, _⟩ := buildPrunePlan_eq ring.toOnDisk intent
  · rw [planned]
    refine (lift here).bind ?_
    split
    · next none =>
      have nothing : pruned intent before = [] := List.length_eq_zero_iff.mp (isPlan.removed ▸ none)
      rw [nothing] at whole
      subst whole
      exact .pure here
    have kept := @indexFor_drop _ codec quota before intent floor _ isPlan.removed
    rw [leaves] at kept
    have needed : placed = [] → pruned intent before = [] := by
      rintro rfl
      have nothing : before = [] := List.getLast?_eq_none_iff.mp last.symm
      rw [nothing] at whole ⊢
      exact (List.append_eq_nil_iff.mp whole).1
    have written : { settled codec quota before staged with
        index := some (indexOf codec quota placed), pruneIntent := some intent } =
        unswept codec quota (pruned intent before) placed staged (some intent) (some quota) := by
      rw [unswept, whole]
      rfl
    have announced : ∀ other ∈ some intent, pruned other placed = [] := by
      rintro _ ⟨⟩
      exact idle
    have there : Recovering codec quota placed staged (unswept codec quota (pruned intent before) placed staged
        (some intent) (some quota)) := .unswept after onDisk needed announced
    rw [indexFor_segments, kept]
    exact (Completes.change here (written ▸ there)).bind (written ▸ cleanup_unswept after onDisk needed announced)
  · exact absurd many (Nat.not_le.mpr few)

end

theorem open_completes (positive : 0 < quota.slots) (blocks : 0 < quota.maxBlocks) (bytes : 0 < quota.maxBytes)
    (recovering : Recovering codec quota placed staged folder) :
    Completes (Recovering codec quota placed staged) (openWithDurability codec quota) folder ()
      (settled codec quota placed staged) := by
  have limits : ¬ (quota.maxBlocks = 0 ∨ quota.maxBytes = 0 ∨ quota.slots = 0) := by omega
  rw [openWithDurability, if_neg limits]
  have here := recovering
  cases recovering with
  | @unswept stale prune policy ring onDisk needed idle =>
    have index := @recoveredIndex_unswept _ _ _ _ _ (unswept codec quota stale placed staged prune policy) positive
      ring onDisk needed rfl rfl
    exact (recoverIndex_completes here index here).bind (open_unswept ring onDisk needed idle)
  | @unindexed disk index policy onDisk chained ordered behind keeps =>
    subst keeps
    have ring := ring_keep onDisk chained ordered
    obtain ⟨stale, split⟩ := @keep_suffix _ codec quota disk
    have needed : keep codec quota disk = [] → stale = [] := by
      intro nothing
      have empty : disk = [] := by_contra fun some => keep_ne_nil onDisk some nothing
      rw [nothing, empty, List.append_nil] at split
      exact split
    have recovered := @recoveredIndex_behind _ _ _ _ ⟨filesOf disk, index, staged, none, none, policy⟩ positive onDisk
      chained rfl behind
    have beside : (⟨filesOf disk, some (indexOf codec quota (keep codec quota disk)),
        staged, none, none, policy⟩) = unswept codec quota stale (keep codec quota disk) staged none policy := by
      rw [unswept, split]
      rfl
    have opens := @open_unswept _ _ _ stale _ staged none policy ring (split.symm ▸ onDisk) needed nofun
    rw [← beside] at opens
    exact (recoverIndex_completes here recovered opens.here).bind opens
  | @pruning before intent ring floor few leaves =>
    have index := @recoveredIndex_unswept _ _ _ [] _ { settled codec quota before staged with
      pruneIntent := some intent } positive ring ring.toOnDisk (fun _ => rfl) rfl rfl
    refine (recoverIndex_completes here index here).bind ?_
    have untruncated : Completes (Recovering codec quota placed staged) (recoverTruncation codec quota)
        { settled codec quota before staged with pruneIntent := some intent } ()
        { settled codec quota before staged with pruneIntent := some intent } :=
      (read here).bind (.pure here)
    have applies := @applyPruning_completes _ _ _ _ _ staged _ ring floor few leaves
    have after : Ring codec quota placed := leaves ▸ ring_unpruned ring _
    have sweeps := @sweep_completes _ _ _ [] _ staged (some quota) after after.toOnDisk fun _ => rfl
    have prunes : Completes (Recovering codec quota placed staged) (recoverPruning quota)
        { settled codec quota before staged with pruneIntent := some intent } ()
        (unswept codec quota [] placed staged none (some quota)) :=
      (read here).bind (applies.bind (clearPruneIntent_completes applies.there sweeps.here))
    exact untruncated.bind (prunes.bind sweeps)
  | @truncating _ _ _ ring cuttable truncating leaves =>
    subst leaves
    have recovered := truncating.recoverIndex positive ring cuttable
    have truncates := recoverTruncation_completes positive ring cuttable recovered
    have left := ring.cutAll cuttable
    have unpruned := @recoverPruning_unswept _ _ _ [] _ staged none (some quota) left left.toOnDisk (fun _ => rfl)
      nofun
    refine (recoverIndex_completes here rfl truncates.here).bind (truncates.bind (unpruned.bind ?_))
    exact sweep_completes left left.toOnDisk fun _ => rfl

end Rbtc.Ledger
