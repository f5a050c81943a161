import Rbtc.Ledger.PrunedLedger
import Mathlib.Tactic.Linarith

/-! Archives placed in slots, and what a scan of them and the choice of a chain among them find. The steps
of a recovery: the choice of a chain, the sweep, the prune and the truncation. -/

namespace Rbtc.Ledger

open Foundation Option List

/-- An archive and the slot of the ring its file stands in. -/
structure Placed where
  slot : Nat
  archive : Archive

namespace Placed

def first (placed : Placed) : Nat := placed.archive.firstHeight

def count (placed : Placed) : Nat := placed.archive.blocks.length

def stop (placed : Placed) : Nat := placed.first + placed.count

def segment {τ : Type} (codec : LedgerCodec τ) (placed : Placed) : Segment := segmentOf codec placed.slot placed.archive

end Placed

open Placed

def filesOf (disk : List Placed) (slot : Nat) : Option Archive :=
  (disk.find? fun placed => placed.slot == slot).map archive

variable {τ : Type} {codec : LedgerCodec τ} {quota : LedgerRetention} {disk front chain rest : List Placed}

section
open Bool

section
variable (codec quota)

/-- An archive the ledger may hold: it has blocks, within the limits and below the last height, and encodes. -/
structure Storable (archive : Archive) : Prop where
  filled : 0 < archive.blocks.length
  blocks : archive.blocks.length ≤ quota.maxBlocks
  bytes : codec.fileBytes archive ≤ quota.maxBytes
  heights : archive.firstHeight + archive.blocks.length < 2 ^ 32
  encoded : encodeArchive codec archive.firstHeight archive.blocks = .ok (archive, codec.fileBytes archive)

/-- Archives that may stand in the ring together: in slots of their own, one above the other by height. -/
structure OnDisk (disk : List Placed) : Prop where
  slots : (disk.map slot).Nodup
  inRing : ∀ placed ∈ disk, placed.slot < quota.slots
  storable : ∀ placed ∈ disk, Storable codec quota placed.archive
  apart : disk.Pairwise fun lower upper => lower.stop ≤ upper.first

end

theorem eq_of_slot (slots : (disk.map slot).Nodup) {left right : Placed} (isLeft : left ∈ disk)
    (isRight : right ∈ disk) (same : left.slot = right.slot) : left = right :=
  inj_on_of_nodup_map slots isLeft isRight same

theorem filesOf_of_mem (slots : (disk.map slot).Nodup) {placed : Placed} (member : placed ∈ disk) :
    filesOf disk placed.slot = some placed.archive := by
  rw [filesOf]
  cases found : disk.find? fun other => other.slot == placed.slot with
  | none =>
    rw [List.find?_eq_none] at found
    exact absurd (beq_self_eq_true placed.slot) (found placed member)
  | some other =>
    have same : other.slot = placed.slot := by simpa using List.find?_some found
    rw [eq_of_slot slots (mem_of_find?_eq_some found) member same]
    rfl

theorem mem_of_filesOf {slot : Nat} {archive : Archive} (found : filesOf disk slot = some archive) :
    ⟨slot, archive⟩ ∈ disk := by
  rw [filesOf, map_eq_some_iff] at found
  obtain ⟨placed, isFound, rfl⟩ := found
  have same : placed.slot = slot := by simpa using List.find?_some isFound
  exact same ▸ mem_of_find?_eq_some isFound

theorem filesOf_eq_some (slots : (disk.map slot).Nodup) {slot : Nat} {archive : Archive} :
    filesOf disk slot = some archive ↔ ⟨slot, archive⟩ ∈ disk := ⟨mem_of_filesOf, filesOf_of_mem slots⟩

theorem filesOf_eq_none {slot : Nat} : filesOf disk slot = none ↔ slot ∉ disk.map Placed.slot := by
  simp [filesOf]

instance : IsTrans Segment Segment.ScansBefore where
  trans left middle right first second := by
    simp only [Segment.ScansBefore] at *
    omega

instance : Std.Total Segment.ScansBefore where
  total left right := by
    simp only [Segment.ScansBefore]
    omega

theorem nodup_segments (slots : (disk.map slot).Nodup) : (disk.map (segment codec)).Nodup := by
  refine List.Nodup.of_map Segment.slot ?_
  rw [List.map_map]
  exact slots

section
variable (onDisk : OnDisk codec quota disk)
include onDisk

theorem OnDisk.filled : ∀ placed ∈ disk, 0 < placed.count := fun placed member => (onDisk.storable placed member).filled

theorem OnDisk.sublist {part : List Placed} (sub : part.Sublist disk) : OnDisk codec quota part where
  slots := onDisk.slots.sublist (sub.map _)
  inRing placed member := onDisk.inRing placed (sub.subset member)
  storable placed member := onDisk.storable placed (sub.subset member)
  apart := onDisk.apart.sublist sub

theorem scannedSlot_eq_some {slot : Nat} {segment : Segment} : ((filesOf disk slot).bind fun archive =>
      if archive.blocks.length = 0 ∨ quota.maxBytes < codec.fileBytes archive then none
      else some (segmentOf codec slot archive)) = some segment ↔
    ∃ placed ∈ disk, placed.slot = slot ∧ placed.segment codec = segment := by
  constructor
  · intro scanned
    obtain ⟨archive, found, checked⟩ := bind_eq_some_iff.mp scanned
    split at checked
    · cases checked
    · exact ⟨⟨slot, archive⟩, mem_of_filesOf found, rfl, some.inj checked⟩
  rintro ⟨placed, member, rfl, rfl⟩
  have filled : placed.archive.blocks.length ≠ 0 := (onDisk.filled placed member).ne'
  have fits := Nat.not_lt.mpr (onDisk.storable placed member).bytes
  rw [filesOf_of_mem onDisk.slots member, bind_some, if_neg (not_or.mpr ⟨filled, fits⟩)]
  rfl

theorem scanSegments_eq {folder : LedgerDirectory} (files : folder.slots = filesOf disk) :
    scanSegments codec quota folder = disk.map (segment codec) := by
  have sorted : (disk.map (segment codec)).Pairwise Segment.ScansBefore := by
    refine List.pairwise_map.mpr (onDisk.apart.imp_of_mem fun isLower _ below => .inl ?_)
    have filled := onDisk.filled _ isLower
    simp only [stop, first, Placed.segment, segmentOf] at *
    omega
  have scanned : ∀ segment, segment ∈ ((List.range quota.slots).filterMap fun slot =>
      (filesOf disk slot).bind fun archive =>
        if archive.blocks.length = 0 ∨ quota.maxBytes < codec.fileBytes archive then none
        else some (segmentOf codec slot archive)) ↔ segment ∈ disk.map (Placed.segment codec) := by
    intro segment
    rw [List.mem_filterMap, List.mem_map]
    constructor
    · rintro ⟨slot, _, found⟩
      obtain ⟨placed, member, _, isSegment⟩ := (scannedSlot_eq_some onDisk).mp found
      exact ⟨placed, member, isSegment⟩
    · rintro ⟨placed, member, isSegment⟩
      exact ⟨placed.slot, mem_range.mpr (onDisk.inRing placed member),
        (scannedSlot_eq_some onDisk).mpr ⟨placed, member, rfl, isSegment⟩⟩
  rw [scanSegments, files]
  refine Perm.eq_of_pairwise ?_ (pairwise_insertionSort _ _) sorted ?_
  · intro left right isLeft isRight before after
    rw [mem_insertionSort] at isLeft
    obtain ⟨lower, isLower, rfl⟩ := mem_map.mp ((scanned left).mp isLeft)
    obtain ⟨upper, isUpper, rfl⟩ := mem_map.mp isRight
    have same : lower.slot = upper.slot := by
      simp only [Segment.ScansBefore, Placed.segment, segmentOf] at before after
      omega
    rw [eq_of_slot onDisk.slots isLower isUpper same]
  · refine (perm_insertionSort _ _).trans ((perm_ext_iff_of_nodup ?_ (nodup_segments onDisk.slots)).mpr scanned)
    refine Nodup.filterMap (fun slot other segment isSlot isOther => ?_) nodup_range
    obtain ⟨_, _, rfl, isPlaced⟩ := (scannedSlot_eq_some onDisk).mp isSlot
    obtain ⟨_, _, rfl, isFound⟩ := (scannedSlot_eq_some onDisk).mp isOther
    exact congrArg Segment.slot (isPlaced.trans isFound.symm)

end

/-- Each archive begins at the height where the one before it ends. -/
def Chained (chain : List Placed) : Prop := chain.IsChain fun lower upper => lower.stop = upper.first

section
variable {placed : Placed} {height : Nat} {best : List Segment}

theorem checkedAdd_segment (onDisk : OnDisk codec quota disk) (member : placed ∈ disk) :
    checkedAdd 32 (placed.segment codec).firstHeight (placed.segment codec).blockCount = some placed.stop :=
  if_pos (onDisk.storable placed member).heights

variable {last : Placed}

theorem continuation_eq (onDisk : OnDisk codec quota disk) (isLast : last ∈ disk) (before : List Segment) :
    continuation (disk.map (segment codec)) (before ++ [last.segment codec]) =
      (disk.find? fun placed => placed.first == last.stop &&
        !(before ++ [last.segment codec]).any fun live => live.slot == placed.slot).map (segment codec) := by
  have expected := checkedAdd_segment onDisk isLast
  simp only [continuation, getLast?_concat, expected, bind_eq_bind, bind_some, List.find?_map]
  rfl

theorem continuation_eq_none (onDisk : OnDisk codec quota (front ++ [last])) (before : List Segment) :
    continuation ((front ++ [last]).map (segment codec)) (before ++ [last.segment codec]) = none := by
  rw [continuation_eq onDisk (by simp), map_eq_none_iff, List.find?_eq_none]
  intro placed member begins
  have begun : placed.first = last.stop := by
    simp only [and_eq_true, beq_iff_eq] at begins
    exact begins.1
  have lastFilled := onDisk.filled last (by simp)
  rcases mem_append.mp member with below | isLast
  · have apart := (pairwise_append.mp onDisk.apart).2.2 placed below last (by simp)
    simp only [stop] at *
    omega
  · rw [mem_singleton.mp isLast] at begun
    simp only [stop] at *
    omega

theorem continuation_eq_some {next : Placed} (onDisk : OnDisk codec quota (front ++ chain ++ last :: next :: rest))
    (follows : last.stop = next.first) : continuation ((front ++ chain ++ last :: next :: rest).map (segment codec))
      (chain.map (segment codec) ++ [last.segment codec]) = some (next.segment codec) := by
  rw [continuation_eq onDisk (by simp), map_eq_some_iff]
  refine ⟨next, ?_, rfl⟩
  have apart := onDisk.apart
  have slots := onDisk.slots
  rw [show front ++ chain ++ last :: next :: rest = (front ++ chain ++ [last]) ++ next :: rest by simp] at *
  rw [List.find?_append, List.find?_cons_of_pos, or_eq_some_iff]
  · refine .inr ⟨?_, rfl⟩
    rw [List.find?_eq_none]
    intro placed member begins
    have begun : placed.first = last.stop := by
      simp only [and_eq_true, beq_iff_eq] at begins
      exact begins.1
    have below := (pairwise_append.mp apart).2.2 placed member next (by simp)
    have filled := onDisk.filled placed (mem_append_left _ member)
    simp only [stop] at *
    omega
  · rw [follows, beq_self_eq_true, Bool.true_and, Bool.not_eq_true', List.any_eq_false]
    rw [← map_singleton, ← map_append]
    rintro _ member same
    obtain ⟨live, isLive, rfl⟩ := mem_map.mp member
    have stands : live ∈ front ++ chain ++ [last] := append_assoc .. ▸ mem_append_right _ isLive
    rw [map_append, nodup_append] at slots
    exact slots.2.2 live.slot (mem_map_of_mem stands) next.slot (by simp) (beq_iff_eq.mp same)

theorem extendChain_eq {fuel : Nat} (onDisk : OnDisk codec quota (front ++ chain ++ last :: rest))
    (chained : Chained (last :: rest)) (enough : rest.length ≤ fuel) :
    extendChain ((front ++ chain ++ last :: rest).map (segment codec)) fuel
      (chain.map (segment codec) ++ [last.segment codec]) = (chain ++ last :: rest).map (segment codec) := by
  induction rest generalizing chain last fuel with
  | nil =>
    have ends : (chain ++ [last]).map (segment codec) =
        chain.map (segment codec) ++ [last.segment codec] := by simp
    rw [ends]
    cases fuel with
    | zero => rfl
    | succ fuel => rw [extendChain, continuation_eq_none onDisk]
  | cons next rest ih =>
    cases fuel with
    | zero => cases enough
    | succ _ =>
      have follows : last.stop = next.first := (isChain_cons_cons.mp chained).1
      rw [extendChain, continuation_eq_some onDisk follows]
      have split : front ++ chain ++ last :: next :: rest = front ++ (chain ++ [last]) ++ next :: rest := by simp
      rw [split] at onDisk ⊢
      have later := ih onDisk (isChain_cons_cons.mp chained).2 (Nat.le_of_succ_le_succ enough)
      simpa using later

section
variable (onDisk : OnDisk codec quota disk) (isLast : last ∈ disk) (before : List Segment)
include onDisk isLast before

theorem extendChain_ends (fuel : Nat) : ∃ longer, ∃ final ∈ disk, last.stop ≤ final.stop ∧
      extendChain (disk.map (segment codec)) fuel (before ++ [last.segment codec]) =
        longer ++ [final.segment codec] := by
  induction fuel generalizing before last with
  | zero => exact ⟨before, last, isLast, Nat.le_refl _, rfl⟩
  | succ _ ih =>
    rw [extendChain, continuation_eq onDisk isLast]
    cases found : disk.find? fun placed => placed.first == last.stop &&
        !(before ++ [last.segment codec]).any fun live => live.slot == placed.slot with
    | none => exact ⟨before, last, isLast, Nat.le_refl _, rfl⟩
    | some next =>
      have begins := List.find?_some found
      rw [and_eq_true, beq_iff_eq] at begins
      obtain ⟨longer, final, isFinal, above, extended⟩ :=
        ih (mem_of_find?_eq_some found) (before ++ [last.segment codec])
      refine ⟨longer, final, isFinal, ?_, extended⟩
      have nextAbove : last.stop ≤ next.stop := begins.1 ▸ Nat.le_add_right ..
      exact nextAbove.trans above

theorem chainEnd_concat : chainEnd (before ++ [last.segment codec]) = last.stop := by
  rw [chainEnd, getLast?_concat, bind_some, checkedAdd_segment onDisk isLast, getD_some]

end

theorem extendChain_singleton {first : Placed} (onDisk : OnDisk codec quota (front ++ first :: rest))
    (chained : Chained (front ++ first :: rest)) : extendChain ((front ++ first :: rest).map (segment codec))
      ((front ++ first :: rest).map (segment codec)).length [first.segment codec] =
        (first :: rest).map (segment codec) := by
  have suffix : Chained (first :: rest) := (isChain_append.mp chained).2.1
  have enough : rest.length ≤ ((front ++ first :: rest).map (segment codec)).length := by
    simp
    omega
  rw [← append_nil front] at onDisk enough ⊢
  exact extendChain_eq onDisk suffix enough

theorem foldl_betterChain_eq (split : disk = front ++ rest) (onDisk : OnDisk codec quota disk)
    (chained : Chained disk) : (rest.map (segment codec)).foldl (betterChain (disk.map (segment codec)))
      (disk.map (segment codec)) = disk.map (segment codec) := by
  induction rest generalizing front with
  | nil => rfl
  | cons first rest ih =>
    have further : disk = (front ++ [first]) ++ rest := by simp [split]
    rw [map_cons, foldl_cons, betterChain]
    have begun := split ▸ extendChain_singleton (split ▸ onDisk) (split ▸ chained)
    rw [begun, if_neg]
    · exact ih further
    have sameEnd : chainEnd (disk.map (segment codec)) = chainEnd ((first :: rest).map (segment codec)) := by
      rw [chainEnd, chainEnd, split, map_append, getLast?_append_of_ne_nil _ (by simp)]
    rw [sameEnd, split]
    rintro (further | ⟨-, longer⟩)
    · exact Nat.lt_irrefl _ further
    · simp only [length_append, length_map] at longer
      omega

theorem bestContiguousChain_eq (onDisk : OnDisk codec quota disk) (chained : Chained disk) :
    bestContiguousChain (disk.map (segment codec)) = disk.map (segment codec) := by
  rw [bestContiguousChain]
  cases disk with
  | nil => rfl
  | cons first rest =>
    have begun := @extendChain_singleton _ _ _ [] _ _ onDisk chained
    rw [nil_append] at begun
    have positive : 0 < chainEnd ((first :: rest).map (segment codec)) := by
      obtain ⟨_, last, ends⟩ := eq_nil_or_concat' (first :: rest) |>.resolve_left (by simp)
      have isLast : last ∈ first :: rest := ends ▸ by simp
      rw [ends, map_append, map_singleton, chainEnd_concat onDisk isLast]
      exact Nat.lt_of_lt_of_le (onDisk.filled last isLast) (Nat.le_add_left ..)
    nth_rewrite 2 [map_cons]
    rw [foldl_cons, betterChain, begun, if_pos (.inl positive)]
    exact @foldl_betterChain_eq _ _ _ _ [first] rest rfl onDisk chained

def EndsAbove (codec : LedgerCodec τ) (disk : List Placed) (height : Nat) (segments : List Segment) : Prop :=
  ∃ before, ∃ last ∈ disk, height ≤ last.stop ∧ segments = before ++ [last.segment codec]

variable (onDisk : OnDisk codec quota disk)
include onDisk

theorem EndsAbove.le_chainEnd {segments : List Segment}
    (ends : EndsAbove codec disk height segments) : height ≤ chainEnd segments := by
  obtain ⟨_, _, isLast, above, rfl⟩ := ends
  rw [chainEnd_concat onDisk isLast]
  exact above

theorem betterChain_endsAbove {first : Placed} (isFirst : first ∈ disk)
    (start : best = [] ∨ ∃ height, EndsAbove codec disk height best) :
    EndsAbove codec disk (max first.stop (chainEnd best))
      (betterChain (disk.map (segment codec)) best (first.segment codec)) := by
  obtain ⟨longer, final, isFinal, above, extended⟩ :=
    extendChain_ends onDisk isFirst [] (disk.map (segment codec)).length
  rw [nil_append] at extended
  rw [betterChain, extended]
  have newEnd := chainEnd_concat onDisk isFinal longer
  split
  · next better =>
    exact ⟨longer, final, isFinal, max_le above (by omega), rfl⟩
  rename_i worse
  rcases start with rfl | ⟨_, before, last, isLast, _, rfl⟩
  · have filled := onDisk.filled final isFinal
    simp only [chainEnd_concat onDisk isFinal, stop] at worse
    simp only [chainEnd, getLast?_nil, bind_none, getD_none] at worse
    omega
  · rw [chainEnd_concat onDisk isLast] at worse ⊢
    exact ⟨before, last, isLast, max_le (by omega) (Nat.le_refl _), rfl⟩

theorem foldl_betterChain_endsAbove (firsts : List Placed)
    (among : ∀ first ∈ firsts, first ∈ disk) (start : best = [] ∨ ∃ height, EndsAbove codec disk height best)
    (reaches : height ≤ chainEnd best ∧ best ≠ [] ∨ ∃ first ∈ firsts, height ≤ first.stop) :
    EndsAbove codec disk height ((firsts.map (segment codec)).foldl (betterChain (disk.map (segment codec))) best) := by
  induction firsts generalizing best with
  | nil =>
    rcases reaches with ⟨above, some⟩ | ⟨_, absent, _⟩
    · obtain ⟨_, before, last, isLast, _, rfl⟩ := start.resolve_left some
      rw [chainEnd_concat onDisk isLast] at above
      exact ⟨before, last, isLast, above, rfl⟩
    · cases absent
  | cons first _ ih =>
    have better := betterChain_endsAbove onDisk (among first mem_cons_self) start
    have higher := better.le_chainEnd onDisk
    have some : betterChain (disk.map (segment codec)) best (first.segment codec) ≠ [] := by
      obtain ⟨_, _, _, _, isBetter⟩ := better
      simp [isBetter]
    refine ih (fun other member => among other (mem_cons_of_mem _ member)) (.inr ⟨_, better⟩) ?_
    rcases reaches with ⟨above, _⟩ | ⟨other, member, above⟩
    · exact .inl ⟨by omega, some⟩
    rcases mem_cons.mp member with rfl | later
    · exact .inl ⟨by omega, some⟩
    · exact .inr ⟨other, later, above⟩

theorem bestContiguousChain_endsAbove (member : placed ∈ disk) :
    EndsAbove codec disk placed.stop (bestContiguousChain (disk.map (segment codec))) :=
  foldl_betterChain_endsAbove onDisk disk (fun _ => id) (.inl rfl) (.inr ⟨placed, member, Nat.le_refl _⟩)

end

theorem trim_not_exceeds (quota : LedgerRetention) (segments : List Segment) :
    exceeds (trim quota segments) quota = false := by
  induction segments with
  | nil => simp [trim, exceeds]
  | cons _ _ ih =>
    rw [trim]
    split
    · exact ih
    · next within => exact eq_false_iff.mpr within

theorem trim_eq_self {segments : List Segment} (within : exceeds segments quota = false) :
    trim quota segments = segments := by
  cases segments with
  | nil => rfl
  | cons _ _ => rw [trim, within, if_neg Bool.false_ne_true]

theorem trim_concat {last : Segment} (blocks : last.blockCount ≤ quota.maxBlocks)
    (bytes : last.bytes ≤ quota.maxBytes) (before : List Segment) :
    ∃ kept, kept <:+ before ∧ trim quota (before ++ [last]) = kept ++ [last] := by
  induction before with
  | nil =>
    refine ⟨[], suffix_refl _, trim_eq_self ?_⟩
    simp [exceeds, blocks, bytes]
  | cons segment rest ih =>
    rw [cons_append, trim]
    split
    · obtain ⟨kept, suffix, trimmed⟩ := ih
      exact ⟨kept, suffix.trans (suffix_cons ..), trimmed⟩
    · exact ⟨segment :: rest, suffix_refl _, rfl⟩

def indexFor (quota : LedgerRetention) (segments : List Segment) : LedgerIndex :=
  { nextSlot := (segments.getLast?.map fun segment => (segment.slot + 1) % quota.slots).getD 0, segments }

/-- The index of archives in their slots. -/
abbrev indexOf (codec : LedgerCodec τ) (quota : LedgerRetention) (placed : List Placed) : LedgerIndex :=
  indexFor quota (placed.map (segment codec))

@[simp] theorem indexFor_segments (quota : LedgerRetention) (segments : List Segment) :
    (indexFor quota segments).segments = segments := rfl

theorem indexFor_nextSlot_lt (positive : 0 < quota.slots) (segments : List Segment) :
    (indexFor quota segments).nextSlot < quota.slots := by
  rw [indexFor]
  cases segments.getLast? with
  | none => exact positive
  | some _ => exact Nat.mod_lt _ positive

section
variable {expected : Option Nat} {used : List Nat}

theorem validSegments_eq_true (onDisk : OnDisk codec quota disk) (within : chain.Sublist disk)
    (chained : Chained chain) (begins : ∀ height ∈ expected, ∀ placed ∈ chain.head?, height = placed.first)
    (unused : ∀ placed ∈ chain, placed.slot ∉ used) :
    validSegments (disk.map (segment codec)) quota.slots expected used (chain.map (segment codec)) = true := by
  induction chain generalizing expected used with
  | nil => rfl
  | cons first _ ih =>
    have isFirst : first ∈ disk := within.subset mem_cons_self
    have inRing := onDisk.inRing first isFirst
    have fresh := unused first mem_cons_self
    have slots := (onDisk.sublist within).slots
    rw [List.map_cons, List.nodup_cons] at slots
    rw [List.map_cons, validSegments, checkedAdd_segment onDisk isFirst]
    simp only [and_eq_true, decide_eq_true_eq, not_eq_true', List.contains_eq_mem, decide_eq_false_iff_not]
    refine ⟨⟨⟨⟨inRing, fresh⟩, List.mem_map_of_mem isFirst⟩, ?_⟩, ?_⟩
    · rw [Option.all_eq_true]
      intro height isHeight
      exact beq_iff_eq.mpr (begins height isHeight first rfl)
    refine ih ((List.sublist_cons_self ..).trans within) (List.isChain_cons.mp chained).2 ?_ ?_
    · rintro _ ⟨⟩ placed isNext
      exact (List.isChain_cons.mp chained).1 placed isNext
    intro placed member used
    rcases mem_cons.mp used with same | old
    · exact slots.1 (mem_map.mpr ⟨placed, member, same⟩)
    · exact unused placed (mem_cons_of_mem _ member) old

theorem validIndex_indexFor (positive : 0 < quota.slots) (onDisk : OnDisk codec quota disk)
    (within : chain.Sublist disk) (chained : Chained chain) :
    validIndex (indexOf codec quota chain) (disk.map (segment codec)) quota.slots = true := by
  rw [validIndex, decide_eq_true (indexFor_nextSlot_lt positive _)]
  refine validSegments_eq_true onDisk within chained ?_ ?_
  · rintro _ ⟨⟩
  · rintro _ _ ⟨⟩

theorem mem_of_validSegments {scanned segments : List Segment} {slots : Nat}
    (valid : validSegments scanned slots expected used segments = true) : ∀ segment ∈ segments, segment ∈ scanned := by
  induction segments generalizing expected used with
  | nil => exact nofun
  | cons _ _ ih =>
    rw [validSegments] at valid
    simp only [and_eq_true, contains_iff_mem] at valid
    obtain ⟨⟨⟨_, found⟩, _⟩, later⟩ := valid
    split at later
    · exact forall_mem_cons.mpr ⟨found, ih later⟩
    · cases later

end

def keep (codec : LedgerCodec τ) (quota : LedgerRetention) : List Placed → List Placed
  | [] => []
  | first :: rest =>
    if exceeds ((first :: rest).map (segment codec)) quota then keep codec quota rest
    else first :: rest

theorem trim_map (disk : List Placed) :
    trim quota (disk.map (segment codec)) = (keep codec quota disk).map (segment codec) := by
  induction disk with
  | nil => rfl
  | cons _ _ ih =>
    rw [map_cons, trim, keep, map_cons]
    split
    · exact ih
    · rfl

theorem keep_suffix (disk : List Placed) : keep codec quota disk <:+ disk := by
  induction disk with
  | nil => exact suffix_refl _
  | cons _ _ ih =>
    rw [keep]
    split
    · exact ih.trans (suffix_cons ..)
    · exact suffix_refl _

end

open Stepwise Function

variable {placed : List Placed} {folder : LedgerDirectory}

/-- The chain that recovery takes: what a usable index names, extended, or the best one on disk. -/
def chosenChain (codec : LedgerCodec τ) (quota : LedgerRetention) (folder : LedgerDirectory) : List Segment :=
  let scanned := scanSegments codec quota folder
  match (folder.index.filter fun index => validIndex index scanned quota.slots).filter
      fun index => !index.segments.isEmpty with
  | some index => extendChain scanned scanned.length index.segments
  | none => bestContiguousChain scanned

theorem recoveredIndex_eq : recoveredIndex codec quota folder =
    indexFor quota (trim quota (chosenChain codec quota folder)) := rfl

section
variable {scanned : List Segment} (scan : scanSegments codec quota folder = scanned)
include scan

theorem chosenChain_of_valid {index : LedgerIndex} (indexed : folder.index = some index)
    (valid : validIndex index scanned quota.slots = true) (some : index.segments ≠ []) :
    chosenChain codec quota folder = extendChain scanned scanned.length index.segments := by
  have nonempty : (!index.segments.isEmpty) = true := by simpa using some
  rw [chosenChain, scan, indexed]
  simp [filter_some, valid, nonempty]

theorem chosenChain_of_unusable
    (unusable : ∀ index ∈ folder.index, validIndex index scanned quota.slots = true → index.segments = []) :
    chosenChain codec quota folder = bestContiguousChain scanned := by
  rw [chosenChain, scan]
  cases indexed : folder.index with
  | none => rfl
  | some index =>
    cases valid : validIndex index scanned quota.slots with
    | false => simp [filter_some, valid]
    | true =>
      have empty : (!index.segments.isEmpty) = false := by simpa using unusable index indexed valid
      simp [filter_some, valid, empty]

end

theorem chosenChain_of_indexed (positive : 0 < quota.slots) {last : Placed}
    (onDisk : OnDisk codec quota (front ++ chain ++ last :: rest)) (chained : Chained (chain ++ last :: rest))
    (files : folder.slots = filesOf (front ++ chain ++ last :: rest))
    (indexed : folder.index = some (indexOf codec quota (chain ++ [last]))) :
    chosenChain codec quota folder = (chain ++ last :: rest).map (segment codec) := by
  have split : chain ++ last :: rest = (chain ++ [last]) ++ rest := by simp
  have part : Chained (chain ++ [last]) := (isChain_append.mp (split ▸ chained)).1
  have within : (chain ++ [last]).Sublist (front ++ chain ++ last :: rest) := by
    rw [append_assoc, split]
    exact (sublist_append_left ..).trans (sublist_append_right ..)
  have ends : (chain ++ [last]).map (segment codec) = chain.map (segment codec) ++ [last.segment codec] := by
    simp
  rw [chosenChain_of_valid (scanSegments_eq onDisk files) indexed (validIndex_indexFor positive onDisk within part)
    (by simp), indexFor_segments, ends]
  refine extendChain_eq onDisk (isChain_append.mp chained).2.1 ?_
  simp
  omega

theorem chosenChain_of_unindexed (onDisk : OnDisk codec quota disk) (chained : Chained disk)
    (files : folder.slots = filesOf disk) (unusable : ∀ index ∈ folder.index, index.segments = [] ∨
      ∃ segment ∈ index.segments, segment ∉ disk.map (Placed.segment codec)) :
    chosenChain codec quota folder = disk.map (segment codec) := by
  rw [chosenChain_of_unusable (scanSegments_eq onDisk files), bestContiguousChain_eq onDisk chained]
  intro index isIndex valid
  refine (unusable index isIndex).resolve_right ?_
  rintro ⟨segment, member, missing⟩
  rw [validIndex, Bool.and_eq_true] at valid
  exact missing (mem_of_validSegments valid.2 segment member)

def LedgerIndex.Reaches (index : LedgerIndex) (height : Nat) : Prop :=
  ∃ before last, index.segments = before ++ [last] ∧ height ≤ last.firstHeight + last.blockCount

theorem recoveredIndex_reaches (onDisk : OnDisk codec quota disk) (files : folder.slots = filesOf disk)
    {height : Nat} (stands : ∃ placed ∈ disk, height ≤ placed.stop)
    (reaches : ∀ index ∈ folder.index, index.Reaches height) : (recoveredIndex codec quota folder).Reaches height := by
  have ends : EndsAbove codec disk height (chosenChain codec quota folder) := by
    by_cases unusable : ∀ index ∈ folder.index,
        validIndex index (disk.map (segment codec)) quota.slots = true → index.segments = []
    · obtain ⟨_, member, above⟩ := stands
      rw [chosenChain_of_unusable (scanSegments_eq onDisk files) unusable]
      obtain ⟨before, last, isLast, higher, best⟩ := bestContiguousChain_endsAbove onDisk member
      exact ⟨before, last, isLast, above.trans higher, best⟩
    push Not at unusable
    obtain ⟨index, isIndex, valid, some⟩ := unusable
    obtain ⟨before, last, isLast, above⟩ := reaches index isIndex
    have found : last ∈ disk.map (segment codec) := by
      rw [validIndex, Bool.and_eq_true] at valid
      exact mem_of_validSegments valid.2 last (isLast ▸ by simp)
    obtain ⟨_, member, rfl⟩ := mem_map.mp found
    rw [chosenChain_of_valid (scanSegments_eq onDisk files) isIndex valid some, isLast]
    obtain ⟨longer, final, isFinal, higher, extended⟩ := extendChain_ends onDisk member before _
    exact ⟨longer, final, isFinal, above.trans higher, extended⟩
  obtain ⟨before, last, isLast, above, isChain⟩ := ends
  have storable := onDisk.storable last isLast
  obtain ⟨kept, -, trimmed⟩ := @trim_concat quota (last.segment codec) storable.blocks storable.bytes before
  rw [recoveredIndex_eq, isChain]
  exact ⟨kept, last.segment codec, trimmed, above⟩

section
variable (codec quota placed)

/-- A ledger at rest: a chain of archives in consecutive slots of the ring, within the limits. -/
structure Ring : Prop extends OnDisk codec quota placed where
  chained : Chained placed
  ordered : placed.IsChain fun lower upper => upper.slot = (lower.slot + 1) % quota.slots
  within : exceeds (placed.map (segment codec)) quota = false

/-- The directory of a ledger at rest. -/
def settled (staged : Option Archive) : LedgerDirectory :=
  ⟨filesOf placed, some (indexOf codec quota placed), staged, none, none, some quota⟩

end

section
variable {stale : List Placed} {slot : Nat}

theorem filesOf_append_of_mem (slots : ((stale ++ placed).map Placed.slot).Nodup)
    (live : slot ∈ placed.map Placed.slot) :
    filesOf (stale ++ placed) slot = filesOf placed slot := by
  obtain ⟨_, member, rfl⟩ := mem_map.mp live
  have later : (placed.map slot).Nodup := (nodup_append.mp (map_append ▸ slots)).2.1
  rw [filesOf_of_mem slots (mem_append_right _ member), filesOf_of_mem later member]

theorem update_filesOf_none (slots : ((stale ++ placed).map Placed.slot).Nodup) (dead : slot ∉ placed.map Placed.slot) :
    update (filesOf (stale ++ placed)) slot none =
      filesOf ((stale.filter fun other => other.slot != slot) ++ placed) := by
  have sub : ((stale.filter fun other => other.slot != slot) ++ placed).Sublist (stale ++ placed) :=
    filter_sublist.append_right _
  have fewer := slots.sublist (sub.map Placed.slot)
  refine funext fun other => Option.ext fun archive => ?_
  rw [update_apply, filesOf_eq_some fewer]
  split
  · next same =>
    have gone : ⟨slot, archive⟩ ∉ placed := fun member => dead (mem_map_of_mem member)
    simp [same, gone]
  · next apart =>
    rw [filesOf_eq_some slots]
    simp [apart]

def swept (live : List Nat) (folder : LedgerDirectory) (slot : Nat) : LedgerDirectory :=
  if slot ∈ live then folder else { folder with slots := update folder.slots slot none }

theorem foldl_swept (live slots : List Nat) (folder : LedgerDirectory) : slots.foldl (swept live) folder =
      { folder with slots := fun slot => if slot ∈ slots ∧ slot ∉ live then none else folder.slots slot } := by
  induction slots generalizing folder with
  | nil => simp
  | cons first _ ih =>
    rw [foldl_cons, ih, swept]
    by_cases isLive : first ∈ live
    all_goals
      simp only [isLive, if_true, if_false, LedgerDirectory.mk.injEq, and_true]
      funext slot
      by_cases same : slot = first
      · simp [same, isLive]
      · simp [same]

/-- Some of the stale files are removed. -/
def Sweeping (folder : LedgerDirectory) (stale placed : List Placed) (current : LedgerDirectory) : Prop :=
  ∃ left : List Placed, left.Sublist stale ∧ current = { folder with slots := filesOf (left ++ placed) }

theorem removeUnindexedSlot_completes (onDisk : OnDisk codec quota (stale ++ placed)) (slot : Nat)
    {current : LedgerDirectory} (sweeping : Sweeping folder stale placed current) :
    Completes (Sweeping folder stale placed)
      (removeUnindexedSlot (indexOf codec quota placed) slot) current ()
      (swept (placed.map Placed.slot) current slot) := by
  have isLive : ((indexOf codec quota placed).segments.any fun segment =>
      segment.slot == slot) = true ↔ slot ∈ placed.map Placed.slot := by
    simp only [indexFor_segments, List.any_map, List.any_eq_true, List.mem_map, comp_apply, beq_iff_eq]
    rfl
  obtain ⟨left, sub, isCurrent⟩ := id sweeping
  have fewer := onDisk.sublist (sub.append_right placed)
  rw [swept, removeUnindexedSlot]
  by_cases live : slot ∈ placed.map Placed.slot
  · rw [if_pos (isLive.mpr live), if_pos live]
    exact .pure sweeping
  rw [if_neg (mt isLive.mp live), if_neg live]
  refine (Completes.read sweeping).bind ?_
  have update := update_filesOf_none fewer.slots live
  cases found : current.slots slot with
  | none =>
    have same : Function.update current.slots slot none = current.slots :=
      Function.update_eq_iff.mpr ⟨found.symm, fun _ _ => rfl⟩
    rw [same]
    exact .pure sweeping
  | some _ =>
    refine .change sweeping ⟨left.filter fun other => other.slot != slot, filter_sublist.trans sub, ?_⟩
    rw [← update, isCurrent]

theorem filesOf_eq_none_of_le (onDisk : OnDisk codec quota disk) (outside : quota.slots ≤ slot) :
    filesOf disk slot = none := by
  rw [filesOf_eq_none]
  intro member
  obtain ⟨archive, isArchive, rfl⟩ := mem_map.mp member
  exact absurd (onDisk.inRing archive isArchive) (Nat.not_lt.mpr outside)

theorem cleanup_completes (onDisk : OnDisk codec quota (stale ++ placed))
    (files : folder.slots = filesOf (stale ++ placed)) : Completes (Sweeping folder stale placed)
      (cleanupUnindexedSlotsLocked quota (indexOf codec quota placed)) folder ()
      { folder with slots := filesOf placed } := by
  have final : (range quota.slots).foldl (swept (placed.map Placed.slot)) folder =
      { folder with slots := filesOf placed } := by
    rw [foldl_swept, files]
    congr 1
    funext slot
    by_cases live : slot ∈ placed.map Placed.slot
    · rw [if_neg fun both => both.2 live, filesOf_append_of_mem onDisk.slots live]
    rw [filesOf_eq_none.mpr live]
    split
    · rfl
    · next outside =>
      refine filesOf_eq_none_of_le onDisk ?_
      simpa [live] using outside
  rw [← final]
  refine Completes.forM (fun slot _ current sweeping => removeUnindexedSlot_completes onDisk slot sweeping) ?_
  exact ⟨stale, List.Sublist.refl _, by rw [← files]⟩

end

section
variable {intent : LedgerPruneIntent}

/-- The oldest archives that an intent removes. -/
def pruned (intent : LedgerPruneIntent) (disk : List Placed) : List Placed :=
  prunable (fun archive => archive.stop - 1) intent.requestedThroughHeight intent.minimumBlocksPreserved disk

/-- The plan that a prune request gets. -/
structure PlanFor (intent : LedgerPruneIntent) (disk : List Placed) (plan : LedgerPrunePlan) : Prop where
  removed : plan.segmentsRemoved = (pruned intent disk).length
  effective : plan.effectiveThroughHeight = (pruned intent disk).getLast?.map fun last => last.stop - 1
  few : (pruned intent disk).length < 2 ^ 32

theorem getLast?_mapM {check : Segment → Except LedgerError Nat} {stops : Placed → Nat}
    (each : ∀ archive ∈ disk, check (archive.segment codec) = .ok (stops archive)) :
    (disk.map (segment codec)).getLast?.mapM check = .ok (disk.getLast?.map stops) := by
  rw [getLast?_map]
  cases isLast : disk.getLast? with
  | none => rfl
  | some last => simp [each last (mem_of_getLast? isLast)]

theorem buildPrunePlan_eq (onDisk : OnDisk codec quota disk) (intent : LedgerPruneIntent) :
    (∃ plan, PlanFor intent disk plan ∧ buildPrunePlan (indexOf codec quota disk) intent.requestedThroughHeight
        intent.minimumBlocksPreserved = .ok plan) ∨
    2 ^ 32 ≤ (pruned intent disk).length ∧ ∃ fault,
      buildPrunePlan (indexOf codec quota disk) intent.requestedThroughHeight
        intent.minimumBlocksPreserved = .error fault := by
  have filled : Filled (indexOf codec quota disk).segments := by
    exact forall_mem_map.mpr fun archive member =>
      ⟨onDisk.filled archive member, (onDisk.storable archive member).heights⟩
  have same : prunable Segment.last intent.requestedThroughHeight intent.minimumBlocksPreserved
      (indexOf codec quota disk).segments = (pruned intent disk).map (segment codec) := by
    rw [indexFor_segments, prunable_map]
    rfl
  have length := (congrArg length same).trans (length_map _)
  rw [buildPrunePlan_of_filled filled, length]
  split
  · next many => exact .inr ⟨many, _, rfl⟩
  · next few =>
    refine .inl ⟨_, ⟨length, ?_, Nat.lt_of_not_le few⟩, rfl⟩
    rw [planOf, same, getLast?_map, Option.map_map]
    rfl

def unpruned (intent : LedgerPruneIntent) (disk : List Placed) : List Placed :=
  disk.drop (pruned intent disk).length

theorem pruned_isInitial (intent : LedgerPruneIntent) (disk : List Placed) : pruned intent disk <+: disk :=
  prunable_isInitial ..

theorem pruned_append_unpruned (intent : LedgerPruneIntent) (disk : List Placed) :
    pruned intent disk ++ unpruned intent disk = disk :=
  prefix_iff_eq_append.mp (pruned_isInitial intent disk)

theorem unpruned_getLast? (floor : intent.minimumBlocksPreserved ≠ 0) (disk : List Placed) :
    (unpruned intent disk).getLast? = disk.getLast? := by
  rw [unpruned, getLast?_drop]
  split
  · next all =>
    cases isLast : disk.getLast? with
    | none => rfl
    | some last =>
      have whole := (pruned_isInitial intent disk).eq_of_length_le all
      have low := (of_mem_prunable _ _ _ _ (whole.symm ▸ mem_of_getLast? isLast)).2 last isLast
      omega
  · rfl

theorem pruned_unpruned (disk : List Placed) : pruned intent (unpruned intent disk) = [] := prunable_drop ..

end

variable {height slot : Nat} {part : List Placed} {files : Nat → Option Archive}

def cut (height : Nat) (archive : Archive) : Archive :=
  ⟨archive.firstHeight, archive.blocks.take (height - archive.firstHeight)⟩

def cutFile (height : Nat) (archive : Archive) : Option Archive :=
  if archive.firstHeight < height then some (cut height archive) else none

def cutAll (height : Nat) (disk : List Placed) : List Placed :=
  (disk.takeWhile fun placed => placed.first < height).map fun placed => ⟨placed.slot, cut height placed.archive⟩

/-- A height cuts an archive only where the shorter file is not the larger one. -/
def Cuttable (codec : LedgerCodec τ) (height : Nat) (disk : List Placed) : Prop :=
  ∀ placed ∈ disk, placed.first < height → height < placed.stop →
    codec.fileBytes (cut height placed.archive) ≤ codec.fileBytes placed.archive

theorem cut_eq_self {archive : Archive} (below : archive.firstHeight + archive.blocks.length ≤ height) :
    cut height archive = archive := by
  rw [cut, take_of_length_le (by omega)]

theorem cutFile_cutFile (archive : Archive) :
    (cutFile height archive).bind (cutFile height) = cutFile height archive := by
  rw [cutFile]
  split
  · next below =>
    rw [bind_some, cutFile, if_pos (show (cut height archive).firstHeight < height from below)]
    simp [cut]
  · rfl

variable {blocks : List BlockBytes}

theorem recordBytes_take {total : Nat} (measured : recordBytes blocks = .ok total) (count : Nat) :
    ∃ part, recordBytes (blocks.take count) = .ok part := by
  rw [← take_append_drop count blocks, recordBytes, foldOutcome_append, bind_eq_ok] at measured
  obtain ⟨part, first, _⟩ := measured
  exact ⟨part, first⟩

theorem encodeArchive_take {first count : Nat} {encoded : Archive × Nat}
    (whole : encodeArchive codec first blocks = .ok encoded) (some : 0 < count)
    (smaller : codec.fileBytes ⟨first, blocks.take count⟩ ≤ codec.fileBytes ⟨first, blocks⟩) :
    encodeArchive codec first (blocks.take count) =
      .ok (⟨first, blocks.take count⟩, codec.fileBytes ⟨first, blocks.take count⟩) := by
  simp only [encodeArchive, ite_error_eq_ok, bind_eq_ok] at whole
  obtain ⟨filled, few, _, measured, fits, _⟩ := whole
  obtain ⟨_, partMeasured⟩ := recordBytes_take measured count
  have stillFilled : blocks.take count ≠ [] := by
    rw [Ne, take_eq_nil_iff, not_or]
    exact ⟨some.ne', filled⟩
  have stillFew : ¬ maxBlocksPerArchive < (blocks.take count).length := by
    have shorter := (take_sublist count blocks).length_le
    omega
  rw [encodeArchive, if_neg stillFilled, if_neg stillFew, partMeasured]
  rw [if_neg (by omega)]
  rfl

def CutFrom (height : Nat) (before after : Placed) : Prop :=
  after = before ∨ before.first < height ∧ after = ⟨before.slot, cut height before.archive⟩

variable {before after : Placed}

section
variable (cuts : CutFrom height before after)
include cuts

theorem CutFrom.slot_eq : after.slot = before.slot := by
  rcases cuts with rfl | ⟨_, rfl⟩
  · rfl
  · rfl

theorem CutFrom.first_eq : after.first = before.first := by
  rcases cuts with rfl | ⟨_, rfl⟩
  · rfl
  · rfl

theorem CutFrom.count_le : after.count ≤ before.count := by
  rcases cuts with rfl | ⟨_, rfl⟩
  · exact Nat.le_refl _
  · exact (take_sublist _ _).length_le

theorem CutFrom.bytes_le (cuttable : before.first < height → height < before.stop →
      codec.fileBytes (cut height before.archive) ≤ codec.fileBytes before.archive) :
    codec.fileBytes after.archive ≤ codec.fileBytes before.archive := by
  rcases cuts with rfl | ⟨below, rfl⟩
  · exact Nat.le_refl _
  · by_cases inside : height < before.stop
    · exact cuttable below inside
    · rw [cut_eq_self (Nat.le_of_not_lt inside)]

theorem CutFrom.storable (whole : Storable codec quota before.archive)
    (smaller : codec.fileBytes after.archive ≤ codec.fileBytes before.archive) :
    Storable codec quota after.archive := by
  have fewer : after.archive.blocks.length ≤ before.archive.blocks.length := cuts.count_le
  rcases cuts with rfl | ⟨below, rfl⟩
  · exact whole
  refine ⟨?_, fewer.trans whole.blocks, smaller.trans whole.bytes, ?_,
    encodeArchive_take whole.encoded (Nat.sub_pos_of_lt below) smaller⟩
  · have filled := whole.filled
    simp only [first, cut, length_take] at *
    omega
  · exact (Nat.add_le_add_left fewer _).trans_lt whole.heights

end

section
variable (onDisk : OnDisk codec quota disk)
include onDisk

theorem OnDisk.cutMap (cuttable : Cuttable codec height disk)
    (sub : part.Sublist disk) {after : Placed → Placed} (cuts : ∀ placed ∈ part, CutFrom height placed (after placed)) :
    OnDisk codec quota (part.map after) := by
  have among := onDisk.sublist sub
  constructor
  · have sameSlots : (part.map after).map slot = part.map slot := by
      rw [List.map_map]
      exact map_congr_left fun placed member => (cuts placed member).slot_eq
    rw [sameSlots]
    exact among.slots
  · exact forall_mem_map.mpr fun placed member => (cuts placed member).slot_eq ▸ among.inRing placed member
  · exact forall_mem_map.mpr fun placed member => (cuts placed member).storable (among.storable placed member)
      ((cuts placed member).bytes_le (cuttable placed (sub.subset member)))
  · refine pairwise_map.mpr (among.apart.imp_of_mem fun isLower isUpper apart => ?_)
    have same := (cuts _ isLower).first_eq
    have fewer := (cuts _ isLower).count_le
    have sameUpper := (cuts _ isUpper).first_eq
    simp only [stop] at apart ⊢
    omega

theorem mem_takeWhile_below {archive : Placed} :
    archive ∈ disk.takeWhile (fun placed => placed.first < height) ↔ archive ∈ disk ∧ archive.first < height := by
  induction disk with
  | nil => simp
  | cons _ _ ih =>
    have later := ih (onDisk.sublist (sublist_cons_self ..))
    rw [takeWhile_cons]
    split
    · next below =>
      rw [decide_eq_true_eq] at below
      rw [mem_cons, later, mem_cons]
      constructor
      · rintro (rfl | ⟨member, under⟩)
        · exact ⟨.inl rfl, below⟩
        · exact ⟨.inr member, under⟩
      · rintro ⟨rfl | member, under⟩
        · exact .inl rfl
        · exact .inr ⟨member, under⟩
    · next above =>
      rw [decide_eq_true_eq] at above
      refine iff_of_false not_mem_nil ?_
      rintro ⟨member, under⟩
      rcases mem_cons.mp member with rfl | inRest
      · exact above under
      · have apart := (pairwise_cons.mp onDisk.apart).1 archive inRest
        simp only [stop] at apart
        omega

theorem filesOf_cutAll (slot : Nat) :
    filesOf (cutAll height disk) slot = (filesOf disk slot).bind (cutFile height) := by
  have sub : (disk.takeWhile fun placed => placed.first < height).Sublist disk := takeWhile_sublist _
  have slots : ((cutAll height disk).map Placed.slot).Nodup := by
    rw [cutAll, List.map_map]
    exact (onDisk.sublist sub).slots
  refine Option.ext fun archive => ?_
  rw [filesOf_eq_some slots]
  simp only [bind_eq_some_iff, filesOf_eq_some onDisk.slots, cutFile, cutAll, List.mem_map,
    mem_takeWhile_below onDisk, ite_none_right_eq_some, some.injEq, Placed.mk.injEq]
  constructor
  · rintro ⟨placed, ⟨member, below⟩, rfl, rfl⟩
    exact ⟨placed.archive, member, below, rfl⟩
  · rintro ⟨whole, member, below, rfl⟩
    exact ⟨_, ⟨member, below⟩, rfl, rfl⟩

end

theorem exceeds_eq_false {segments : List Segment} : exceeds segments quota = false ↔
    (segments.map Segment.blockCount).sum ≤ quota.maxBlocks ∧ (segments.map Segment.bytes).sum ≤ quota.maxBytes := by
  simp [exceeds]

theorem Ring.cutAll (ring : Ring codec quota disk) (cuttable : Cuttable codec height disk) :
    Ring codec quota (cutAll height disk) := by
  have sub : (disk.takeWhile fun placed => placed.first < height).Sublist disk := takeWhile_sublist _
  have split : (disk.takeWhile fun placed => placed.first < height) ++
      (disk.dropWhile fun placed => placed.first < height) = disk := takeWhile_append_dropWhile
  have cuts : ∀ placed ∈ disk.takeWhile (fun placed => placed.first < height),
      CutFrom height placed ⟨placed.slot, cut height placed.archive⟩ := fun placed member =>
    .inr ⟨((mem_takeWhile_below ring.toOnDisk).mp member).2, rfl⟩
  refine ⟨ring.cutMap cuttable sub cuts, ?_, ?_, ?_⟩
  · refine (isChain_map _).mpr ?_
    refine (isChain_append.mp (split.symm ▸ ring.chained)).1.imp_of_mem_imp fun lower upper _ isUpper follows => ?_
    have below := ((mem_takeWhile_below ring.toOnDisk).mp isUpper).2
    have whole : cut height lower.archive = lower.archive := cut_eq_self (follows.trans_le below.le)
    rw [whole]
    exact follows
  · exact (isChain_map _).mpr (isChain_append.mp (split.symm ▸ ring.ordered)).1
  · obtain ⟨blocks, bytes⟩ := exceeds_eq_false.mp ring.within
    rw [exceeds_eq_false, Ledger.cutAll]
    simp only [List.map_map] at blocks bytes ⊢
    constructor
    · refine le_trans (sum_le_sum fun placed member => (cuts placed member).count_le) ?_
      exact le_trans ((sub.map _).sum_le_sum fun _ _ => Nat.zero_le _) blocks
    · refine le_trans (sum_le_sum fun placed member =>
        (cuts placed member).bytes_le (cuttable placed (sub.subset member))) ?_
      exact le_trans ((sub.map _).sum_le_sum fun _ _ => Nat.zero_le _) bytes

/-- Each file is still whole, or cut at the height already. -/
def PartlyCut (height : Nat) (disk : List Placed) (files : Nat → Option Archive) : Prop :=
  ∀ slot, files slot = filesOf disk slot ∨ files slot = (filesOf disk slot).bind (cutFile height)

/-- The archives whose files are there, as they are now. -/
def standing (files : Nat → Option Archive) (disk : List Placed) : List Placed :=
  (disk.filter fun placed => (files placed.slot).isSome).map fun placed =>
    ⟨placed.slot, (files placed.slot).getD placed.archive⟩

variable (partly : PartlyCut height disk files)
include partly

theorem PartlyCut.cutFrom (slots : (disk.map Placed.slot).Nodup) :
    ∀ placed ∈ disk.filter fun placed => (files placed.slot).isSome,
      CutFrom height placed ⟨placed.slot, (files placed.slot).getD placed.archive⟩ := by
  intro placed member
  obtain ⟨inDisk, present⟩ := mem_filter.mp member
  have found := partly placed.slot
  rw [filesOf_of_mem slots inDisk, bind_some, cutFile] at found
  rcases found with whole | isCut
  · rw [whole]
    exact .inl rfl
  split at isCut
  · next below =>
    rw [isCut]
    exact .inr ⟨below, rfl⟩
  · rw [isCut] at present
    cases present

theorem PartlyCut.onDisk (onDisk : OnDisk codec quota disk)
    (cuttable : Cuttable codec height disk) : OnDisk codec quota (standing files disk) :=
  onDisk.cutMap cuttable filter_sublist (partly.cutFrom onDisk.slots)

theorem PartlyCut.files_eq (onDisk : OnDisk codec quota disk)
    (cuttable : Cuttable codec height disk) : files = filesOf (standing files disk) := by
  funext slot
  refine Option.ext fun archive => ?_
  rw [filesOf_eq_some (partly.onDisk onDisk cuttable).slots, standing, List.mem_map]
  constructor
  · intro found
    have known : ∃ before, filesOf disk slot = some before := by
      rcases partly slot with whole | isCut
      · exact ⟨archive, whole ▸ found⟩
      · rw [isCut, bind_eq_some_iff] at found
        exact ⟨found.choose, found.choose_spec.1⟩
    obtain ⟨before, isBefore⟩ := known
    exact ⟨⟨slot, before⟩, mem_filter.mpr ⟨mem_of_filesOf isBefore, by simp [found]⟩, by simp [found]⟩
  · rintro ⟨before, isBefore, same⟩
    obtain ⟨_, isFound⟩ := isSome_iff_exists.mp (mem_filter.mp isBefore).2
    rw [isFound] at same
    cases same
    exact isFound

theorem PartlyCut.files_eq_cutAll (onDisk : OnDisk codec quota disk)
    (done : ∀ placed ∈ standing files disk, placed.stop ≤ height) : files = filesOf (cutAll height disk) := by
  funext slot
  rw [filesOf_cutAll onDisk]
  rcases partly slot with whole | isCut
  · cases found : filesOf disk slot with
    | none => rw [whole, found, bind_none]
    | some archive =>
      have member := mem_of_filesOf found
      have stands : ⟨slot, archive⟩ ∈ standing files disk := by
        refine mem_map.mpr ⟨⟨slot, archive⟩, mem_filter.mpr ⟨member, ?_⟩, ?_⟩
        · simp [whole, found]
        · simp [whole, found]
      have below : archive.firstHeight + archive.blocks.length ≤ height := done _ stands
      have filled : 0 < archive.blocks.length := onDisk.filled _ member
      rw [whole, found, bind_some, cutFile, if_pos (by omega), cut_eq_self below]
  · exact isCut

end Rbtc.Ledger
