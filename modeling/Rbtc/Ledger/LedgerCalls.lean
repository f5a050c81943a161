import Rbtc.Ledger.LedgerRecovery
import Mathlib.Data.Nat.ModEq

/-! A call refuses before its first step, or a reopen goes forward from there to its result. What appending,
truncating and pruning make of the blocks that a ledger at rest gives back. -/

namespace Rbtc.Ledger

open Foundation Stepwise Placed Option

variable {τ : Type} {codec : LedgerCodec τ} {quota : LedgerRetention}
  {placed next : List Placed} {folder : LedgerDirectory} {staged later : Option Archive} {height : Nat}

section
open List

def Follows (placed : List Placed) (archive : Archive) :
    Prop := ∀ last ∈ placed.getLast?, last.stop = archive.firstHeight

/-- As before the first step, and from then on a directory from which a reopen goes forward to the
ledger after the call. -/
def Between (codec : LedgerCodec τ) (quota : LedgerRetention) (placed : List Placed) (staged : Option Archive)
    (next : List Placed) (later : Option Archive) (folder : LedgerDirectory) : Prop :=
  folder = settled codec quota placed staged ∨ Recovering codec quota next later folder ∨
    Recovering codec quota next staged folder

theorem Recovering.between (after : Recovering codec quota next later folder) :
    Between codec quota placed staged next later folder := .inr (.inl after)

variable {archive : Archive} {firstHeight : Nat} {blocks : List BlockBytes}

section
variable {slot : Nat}

def nextSlot (quota : LedgerRetention) (placed : List Placed) : Nat :=
  (placed.getLast?.map fun last => (last.slot + 1) % quota.slots).getD 0

theorem nextSlot_eq (positive : 0 < quota.slots) (placed : List Placed) :
    (indexOf codec quota placed).nextSlot % quota.slots = nextSlot quota placed := by
  rw [Nat.mod_eq_of_lt (indexFor_nextSlot_lt positive _), indexFor, getLast?_map, Option.map_map]
  rfl

def others (quota : LedgerRetention) (placed : List Placed) : List Placed :=
  placed.filter fun live => live.slot != nextSlot quota placed

variable {live : Placed}

/-- The archives after a new one is renamed into the next slot, over the oldest if the ring is full. -/
def published (quota : LedgerRetention) (placed : List Placed) (archive : Archive) : List Placed :=
  others quota placed ++ [⟨nextSlot quota placed, archive⟩]

section
variable (ring : Ring codec quota placed)
include ring

theorem oldest_of_nextSlot {front back : List Placed}
    (split : placed = front ++ live :: back) (taken : live.slot = nextSlot quota placed) : front = [] := by
  obtain ⟨last, isLast⟩ : ∃ last, (live :: back).getLast? = some last := ⟨_, getLast?_eq_some_getLast (by simp)⟩
  have ends : placed.getLast? = some last := by
    rw [split, getLast?_append, isLast, some_or]
  rw [nextSlot, ends] at taken
  rcases eq_nil_or_concat' front with nothing | ⟨_, previous, rfl⟩
  · exact nothing
  have follows : live.slot = (previous.slot + 1) % quota.slots := by
    have ordered := ring.ordered
    rw [split, append_assoc] at ordered
    exact (isChain_cons_cons.mp (isChain_append.mp ordered).2.1).1
  have slots := ring.slots
  rw [split, map_append, nodup_append] at slots
  have lastIn : last ∈ placed := mem_of_getLast? ends
  have previousIn : previous ∈ placed := split ▸ by simp
  have congruent : previous.slot + 1 ≡ last.slot + 1 [MOD quota.slots] := follows.symm.trans taken
  have same := (congruent.add_right_cancel' 1).eq_of_lt_of_lt (ring.inRing previous previousIn)
    (ring.inRing last lastIn)
  exact absurd same (slots.2.2 _ (by simp) _ (mem_map_of_mem (mem_of_getLast? isLast)))

theorem others_eq : others quota placed = placed ∧ nextSlot quota placed ∉ placed.map Placed.slot ∨
      ∃ oldest, placed = oldest :: others quota placed ∧ oldest.slot = nextSlot quota placed := by
  by_cases taken : nextSlot quota placed ∈ placed.map Placed.slot
  · obtain ⟨live, isLive, same⟩ := mem_map.mp taken
    obtain ⟨_, back, split⟩ := append_of_mem isLive
    obtain rfl := oldest_of_nextSlot ring split same
    rw [nil_append] at split
    refine .inr ⟨live, ?_, same⟩
    have slots := ring.slots
    rw [split, map_cons, nodup_cons] at slots
    have rest : others quota placed = back := by
      rw [others, ← same, split, filter_cons_of_neg (by simp), filter_eq_self]
      intro other isOther
      rw [bne_iff_ne]
      exact fun equal => slots.1 (mem_map.mpr ⟨other, isOther, equal⟩)
    rw [rest]
    exact split
  · refine .inl ⟨filter_eq_self.mpr fun other isOther => ?_, taken⟩
    rw [bne_iff_ne]
    exact fun equal => taken (mem_map.mpr ⟨other, isOther, equal⟩)

theorem others_suffix : others quota placed <:+ placed := by
  rcases others_eq ring with ⟨same, _⟩ | ⟨_, split, _⟩
  · exact ⟨[], same⟩
  · nth_rewrite 2 [split]
    exact suffix_cons ..

end

theorem others_slot_ne (member : live ∈ others quota placed) : live.slot ≠ nextSlot quota placed :=
  bne_iff_ne.mp (mem_filter.mp member).2

theorem nextSlot_lt (positive : 0 < quota.slots) : nextSlot quota placed < quota.slots := by
  rw [nextSlot]
  cases placed.getLast? with
  | none => exact positive
  | some _ => exact Nat.mod_lt _ positive

theorem stop_le_of_follows (onDisk : OnDisk codec quota placed) (follows : Follows placed archive)
    (member : live ∈ placed) : live.stop ≤ archive.firstHeight := by
  rcases eq_nil_or_concat' placed with rfl | ⟨_, last, rfl⟩
  · cases member
  have ends : last.stop = archive.firstHeight := follows last (by simp)
  rcases mem_append.mp member with earlier | isLast
  · have below := (pairwise_append.mp onDisk.apart).2.2 live earlier last (by simp)
    exact below.trans ((Nat.le_add_right ..).trans ends.le)
  · rw [mem_singleton.mp isLast]
    exact ends.le

section
variable (ring : Ring codec quota placed)
include ring

theorem getLast?_others {last : Placed}
    (isLast : last ∈ (others quota placed).getLast?) : placed.getLast? = some last := by
  obtain ⟨_, split⟩ := others_suffix ring
  rw [← split, getLast?_append, mem_def.mp isLast, some_or]

theorem published_isChain {relation : Placed → Placed → Prop} (chain : placed.IsChain relation)
    (joins : ∀ last ∈ placed.getLast?, relation last ⟨nextSlot quota placed, archive⟩) :
    (published quota placed archive).IsChain relation := by
  obtain ⟨_, split⟩ := others_suffix ring
  refine isChain_append.mpr ⟨(isChain_append.mp (split.symm ▸ chain)).2.1, isChain_singleton _, ?_⟩
  rintro last isLast _ ⟨⟩
  exact joins last (getLast?_others ring isLast)

theorem published_chained (follows : Follows placed archive) : Chained (published quota placed archive) :=
  published_isChain ring ring.chained follows

theorem published_ordered :
    (published quota placed archive).IsChain fun lower upper => upper.slot = (lower.slot + 1) % quota.slots := by
  refine published_isChain ring ring.ordered fun last isLast => ?_
  rw [nextSlot, mem_def.mp isLast]
  rfl

end

section
variable (onDisk : OnDisk codec quota (published quota placed archive))
include onDisk

theorem keep_published : ∃ kept, kept <:+ others quota placed ∧ keep codec quota (published quota placed archive) =
      kept ++ [⟨nextSlot quota placed, archive⟩] := by
  obtain ⟨dropped, split⟩ := @keep_suffix _ codec quota (published quota placed archive)
  rcases eq_nil_or_concat' (keep codec quota (published quota placed archive)) with nothing | ⟨kept, _, isKept⟩
  · exact absurd nothing (keep_ne_nil onDisk (by simp [published]))
  rw [isKept, ← append_assoc] at split
  obtain ⟨front, isLast⟩ := append_inj' split rfl
  refine ⟨kept, ⟨dropped, front⟩, ?_⟩
  rw [isKept, isLast]

theorem extendIndex_eq : extendIndex quota (indexOf codec quota placed) (nextSlot quota placed)
      (segmentOf codec (nextSlot quota placed) archive) =
    indexOf codec quota (keep codec quota (published quota placed archive)) := by
  have segments : ((placed.map (segment codec)).filter fun live => live.slot != nextSlot quota placed) ++
      [segmentOf codec (nextSlot quota placed) archive] = (published quota placed archive).map (segment codec) := by
    rw [published, map_append, List.filter_map]
    rfl
  obtain ⟨_, -, isKept⟩ := keep_published onDisk
  rw [extendIndex, indexFor_segments, segments, trim_map, isKept, indexOf, indexFor, getLast?_map, getLast?_concat]
  rfl

end

/-- The ledger ends in the archive, behind the youngest of the archives it had. -/
def Appends (placed : List Placed) (archive : Archive) (next : List Placed) : Prop :=
  Follows placed archive ∧ ∃ kept slot, kept <:+ placed ∧ next = kept ++ [⟨slot, archive⟩]

section
variable (positive : 0 < quota.slots) (ring : Ring codec quota placed)
  (storable : Storable codec quota archive) (follows : Follows placed archive)
include positive ring storable follows

theorem published_onDisk : OnDisk codec quota (published quota placed archive) := by
  have rest := ring.toOnDisk.sublist (others_suffix ring).sublist
  constructor
  · rw [published, map_append, nodup_append]
    refine ⟨rest.slots, nodup_singleton _, ?_⟩
    intro slot isSlot other isOther
    obtain ⟨live, isLive, rfl⟩ := mem_map.mp isSlot
    rw [map_singleton, mem_singleton] at isOther
    exact isOther ▸ others_slot_ne isLive
  · exact forall_mem_append.mpr ⟨rest.inRing, forall_mem_singleton.mpr (nextSlot_lt positive)⟩
  · exact forall_mem_append.mpr ⟨rest.storable, forall_mem_singleton.mpr storable⟩
  · refine pairwise_append.mpr ⟨rest.apart, pairwise_singleton .., ?_⟩
    intro live isLive new isNew
    rw [mem_singleton.mp isNew]
    exact stop_le_of_follows ring.toOnDisk follows ((others_suffix ring).subset isLive)

theorem filesOf_published : Function.update (filesOf placed) (nextSlot quota placed) (some archive) =
      filesOf (published quota placed archive) := by
  have onDisk := published_onDisk positive ring storable follows
  refine funext fun slot => Option.ext fun other => ?_
  rw [Function.update_apply, filesOf_eq_some onDisk.slots, published, others]
  split
  · next same => simp [same, eq_comm]
  · next apart =>
    rw [filesOf_eq_some ring.slots]
    simp [apart]

theorem published_behind : IndexBehind codec quota (published quota placed archive)
      (some (indexOf codec quota placed)) := by
  have onDisk := published_onDisk positive ring storable follows
  rcases others_eq ring with ⟨same, _⟩ | ⟨oldest, split, taken⟩
  · rcases eq_nil_or_concat' placed with rfl | ⟨chain, last, rfl⟩
    · refine .inl ?_
      rintro _ ⟨⟩
      exact .inl rfl
    · refine .inr ⟨chain, last, [⟨nextSlot quota (chain ++ [last]), archive⟩], ?_, rfl⟩
      rw [published, same, append_assoc, singleton_append]
  refine .inl ?_
  rintro _ ⟨⟩
  refine .inr ⟨oldest.segment codec, ?_, ?_⟩
  · exact mem_map_of_mem (split ▸ mem_cons_self)
  intro member
  obtain ⟨live, isLive, same⟩ := mem_map.mp member
  -- the slot of the oldest archive now holds one that begins above it
  have sameSlot : live.slot = nextSlot quota placed := (congrArg Segment.slot same).trans taken
  have isNew : live = ⟨nextSlot quota placed, archive⟩ :=
    eq_of_slot onDisk.slots isLive (mem_append_right _ (mem_singleton_self _)) sameSlot
  have sameFirst : archive.firstHeight = oldest.first := by
    have := congrArg Segment.firstHeight same
    rw [isNew] at this
    exact this
  have isOldest : oldest ∈ placed := split ▸ mem_cons_self
  have below := stop_le_of_follows ring.toOnDisk follows isOldest
  have filled := ring.filled oldest isOldest
  simp only [stop] at below
  omega

theorem publish_completes {step : LedgerDirectory → LedgerDirectory}
    (publishes : step (settled codec quota placed staged) = { settled codec quota placed later with
      slots := Function.update (filesOf placed) (nextSlot quota placed) (some archive) }) :
    Completes (Between codec quota placed staged (keep codec quota (published quota placed archive)) later)
      (Stepwise.change step >>= fun _ => writeIndex (extendIndex quota
          (indexOf codec quota placed) (nextSlot quota placed)
          (segmentOf codec (nextSlot quota placed) archive)) >>= fun _ =>
        cleanupUnindexedSlotsLocked quota (extendIndex quota
          (indexOf codec quota placed) (nextSlot quota placed)
          (segmentOf codec (nextSlot quota placed) archive))) (settled codec quota placed staged) ()
      (settled codec quota (keep codec quota (published quota placed archive)) later) := by
  have onDisk := published_onDisk positive ring storable follows
  have chained := published_chained ring follows
  have kept := ring_keep onDisk chained (published_ordered ring)
  have behind := published_behind positive ring storable follows
  rw [filesOf_published positive ring storable follows] at publishes
  rw [extendIndex_eq onDisk]
  obtain ⟨stale, split⟩ := @keep_suffix _ codec quota (published quota placed archive)
  have needed : keep codec quota (published quota placed archive) = [] → stale = [] :=
    fun nothing => absurd nothing (keep_ne_nil onDisk (by simp [published]))
  have sweeps := @cleanup_unswept _ codec quota stale _ later none (some quota) kept (split.symm ▸ onDisk) needed
    nofun
  have renamed : Recovering codec quota (keep codec quota (published quota placed archive)) later
      (step (settled codec quota placed staged)) := by
    rw [publishes]
    exact .unindexed onDisk chained (published_ordered ring) behind rfl
  refine Completes.bind (.change (.inl rfl) renamed.between) ?_
  have written : { step (settled codec quota placed staged) with index := some (indexFor quota
      ((keep codec quota (published quota placed archive)).map (segment codec))) } =
      unswept codec quota stale (keep codec quota (published quota placed archive)) later none (some quota) := by
    rw [publishes, unswept, split]
    rfl
  refine Completes.bind (.change renamed.between (Recovering.between ?_)) ?_
  · rw [written]
    exact sweeps.here
  · rw [written]
    exact sweeps.mono fun _ => Recovering.between

theorem appends_published : Appends placed archive (keep codec quota (published quota placed archive)) := by
  obtain ⟨kept, suffix, isKept⟩ := keep_published (published_onDisk positive ring storable follows)
  exact ⟨follows, kept, _, suffix.trans (others_suffix ring), isKept⟩

end

end

/-- A call refuses, or completes with a changed ledger that a reopen goes forward to from its first step on. -/
def Effect {α : Type} (codec : LedgerCodec τ) (quota : LedgerRetention) (program : LedgerProgram α)
    (placed : List Placed) (staged : Option Archive) (changes : List Placed → Option Archive → Prop) : Prop :=
  (∃ fault, Refuses program (settled codec quota placed staged) fault) ∨
    ∃ next later value, Ring codec quota next ∧ (∀ archive ∈ later, Storable codec quota archive) ∧
      changes next later ∧ Completes (Between codec quota placed staged next later) program
        (settled codec quota placed staged) value (settled codec quota next later)

section
variable {α β : Type} {changes : List Placed → Option Archive → Prop} {first : LedgerProgram β}
  {rest : β → LedgerProgram α} {value : β} {after : LedgerDirectory → LedgerProgram α}

theorem Effect.quiet (quiet : first (settled codec quota placed staged) = ([], .ok value))
    (effect : Effect codec quota (rest value) placed staged changes) :
    Effect codec quota (first >>= rest) placed staged changes := by
  rcases effect with ⟨fault, refuses⟩ | ⟨next, later, result, ring, fits, changed, completes⟩
  · exact .inl ⟨fault, .after quiet refuses⟩
  · exact .inr ⟨next, later, result, ring, fits, changed, (Completes.quiet quiet completes.here).bind completes⟩

theorem Effect.lift {result : Except LedgerError β}
    (effect : ∀ value, result = .ok value → Effect codec quota (rest value) placed staged changes) :
    Effect codec quota (Stepwise.lift result >>= rest) placed staged changes := by
  cases result with
  | error fault => exact .inl ⟨fault, Refuses.lift.bind⟩
  | ok value => exact .quiet rfl (effect value rfl)

theorem Effect.read (effect : Effect codec quota (after (settled codec quota placed staged)) placed staged changes) :
    Effect codec quota (Stepwise.read >>= after) placed staged changes := .quiet rfl effect

theorem Effect.readIndex {indexed : LedgerIndex → LedgerProgram α}
    (effect : Effect codec quota (indexed (indexOf codec quota placed)) placed staged
      changes) : Effect codec quota (Ledger.readIndex >>= indexed) placed staged changes := .quiet rfl effect

theorem Effect.fails (fault : LedgerError) :
    Effect codec quota (Stepwise.lift (.error fault) : LedgerProgram α) placed staged changes := .inl ⟨fault, .lift⟩

theorem Effect.discard (effect : Effect codec quota first placed staged changes) :
    Effect codec quota (first >>= fun _ => pure ()) placed staged changes := by
  rcases effect with ⟨fault, refuses⟩ | ⟨next, later, _, ring, fits, changed, completes⟩
  · exact .inl ⟨fault, refuses.bind⟩
  · exact .inr ⟨next, later, (), ring, fits, changed, completes.bind (.pure completes.there)⟩

theorem Effect.mono {weaker : List Placed → Option Archive → Prop}
    (effect : Effect codec quota first placed staged changes)
    (implies : ∀ next later, changes next later → weaker next later) :
    Effect codec quota first placed staged weaker := by
  rcases effect with refuses | ⟨next, later, result, ring, fits, changed, completes⟩
  · exact .inl refuses
  · exact .inr ⟨next, later, result, ring, fits, implies next later changed, completes⟩

theorem Effect.unchanged (ring : Ring codec quota placed)
    (fits : ∀ archive ∈ staged, Storable codec quota archive) (changed : changes placed staged) (result : α) :
    Effect codec quota (pure result : LedgerProgram α) placed staged changes :=
  .inr ⟨placed, staged, result, ring, fits, changed, .pure (.inl rfl)⟩

end

theorem segmentEndExclusive_eq (onDisk : OnDisk codec quota placed) {live : Placed} (member : live ∈ placed) :
    segmentEndExclusive (live.segment codec) = .ok live.stop := by
  rw [segmentEndExclusive, checkedAdd_segment onDisk member]
  rfl

theorem checkAppend_ok (onDisk : OnDisk codec quota placed)
    (checked : checkAppend quota (indexOf codec quota placed) firstHeight blocks = .ok ()) :
    blocks.length ≤ quota.maxBlocks ∧ Follows placed ⟨firstHeight, blocks⟩ := by
  simp only [checkAppend, ite_error_eq_ok] at checked
  obtain ⟨_, few, checked⟩ := checked
  refine ⟨Nat.le_of_not_lt few, fun last isLast => ?_⟩
  have member := mem_of_getLast? (mem_def.mp isLast)
  rw [indexFor_segments, getLast?_map, mem_def.mp isLast] at checked
  simp only [map_some, segmentEndExclusive_eq onDisk member, ok_bind, ite_error_eq_ok, not_not] at checked
  exact checked.1.symm

theorem encodeArchive_ok {encoded : Archive × Nat} (accepted : encodeArchive codec firstHeight blocks = .ok encoded) :
    encoded = (⟨firstHeight, blocks⟩, codec.fileBytes ⟨firstHeight, blocks⟩) := by
  simp only [encodeArchive, ite_error_eq_ok, bind_eq_ok, pure_eq_ok] at accepted
  obtain ⟨_, _, _, _, _, rfl⟩ := accepted
  rfl

theorem appendLocked_effect (positive : 0 < quota.slots) (ring : Ring codec quota placed)
    (stagedFits : ∀ archive ∈ staged, Storable codec quota archive) (fits : firstHeight + blocks.length < 2 ^ 32) :
    Effect codec quota (appendLocked codec quota firstHeight blocks) placed staged fun next later =>
      later = staged ∧ Appends placed ⟨firstHeight, blocks⟩ next := by
  rw [appendLocked]
  split
  · exact .fails _
  rename_i filled
  refine .readIndex (.lift fun _ checked => .lift fun encoded accepted => ?_)
  obtain ⟨few, follows⟩ := checkAppend_ok ring.toOnDisk checked
  have isEncoded := encodeArchive_ok accepted
  subst isEncoded
  dsimp only
  split
  · exact .fails _
  rename_i small
  have storable : Storable codec quota ⟨firstHeight, blocks⟩ :=
    ⟨length_pos_iff.mpr filled, few, Nat.le_of_not_lt small, fits, accepted⟩
  have onDisk := published_onDisk positive ring storable follows
  rw [nextSlot_eq positive]
  refine .inr ⟨_, staged, (), ring_keep onDisk (published_chained ring follows) (published_ordered ring), stagedFits,
    ⟨rfl, appends_published positive ring storable follows⟩, ?_⟩
  exact publish_completes positive ring storable follows rfl

theorem checkStage_ok (checked : checkStage quota blocks = .ok ()) : blocks ≠ [] ∧ blocks.length ≤ quota.maxBlocks := by
  simp only [checkStage, ite_error_eq_ok] at checked
  exact ⟨checked.1, Nat.le_of_not_lt checked.2.2.1⟩

section
variable (ring : Ring codec quota placed)
include ring

theorem change_staged_effect {step : LedgerDirectory → LedgerDirectory}
    (fits : ∀ archive ∈ later, Storable codec quota archive)
    (stages : step (settled codec quota placed staged) = settled codec quota placed later) :
    Effect codec quota (Stepwise.change step) placed staged fun next now => next = placed ∧ now = later := by
  refine .inr ⟨placed, later, (), ring, fits, ⟨rfl, rfl⟩, ?_⟩
  rw [← stages]
  refine .change (.inl rfl) (.inr (.inl ?_))
  rw [stages]
  exact recovering_settled ring later

theorem stage_effect (fits : firstHeight + blocks.length < 2 ^ 32) :
    Effect codec quota (stage codec quota firstHeight blocks) placed staged fun next later =>
      next = placed ∧ later = some ⟨firstHeight, blocks⟩ := by
  refine .lift fun _ checked => .read ?_
  obtain ⟨filled, few⟩ := checkStage_ok checked
  split
  · exact .fails _
  refine .lift fun encoded accepted => ?_
  have isEncoded := encodeArchive_ok accepted
  subst isEncoded
  dsimp only
  split
  · exact .fails _
  rename_i small
  refine change_staged_effect ring ?_ rfl
  rintro _ ⟨⟩
  exact ⟨length_pos_iff.mpr filled, few, Nat.le_of_not_lt small, fits, accepted⟩

theorem discardStaged_effect :
    Effect codec quota discardStaged placed staged fun next later => next = placed ∧ later = none := by
  have fits : ∀ archive ∈ none, Storable codec quota archive := nofun
  refine .read ?_
  cases staged with
  | none => exact .unchanged ring fits ⟨rfl, rfl⟩ ()
  | some _ => exact change_staged_effect ring fits rfl

end

theorem cutAll_eq_self (below : ∀ live ∈ placed, live.stop ≤ height) (filled : ∀ live ∈ placed, 0 < live.count) :
    cutAll height placed = placed := by
  have whole : (placed.takeWhile fun live => live.first < height) = placed := by
    rw [takeWhile_eq_self_iff]
    intro live member
    have stops := below live member
    have some := filled live member
    simp only [stop] at stops
    exact decide_eq_true (by omega)
  rw [cutAll, whole]
  refine (map_congr_left fun live member => ?_).trans (map_id _)
  rw [cut_eq_self (below live member)]
  rfl

theorem truncating_settled (ring : Ring codec quota placed) (staged : Option Archive) (height : Nat) :
    Truncating codec quota placed staged height
      { settled codec quota placed staged with truncateIntent := some height } := by
  refine ⟨fun _ => .inl rfl, ⟨_, rfl, ?_⟩, rfl, rfl, rfl, rfl⟩
  by_cases below : ∀ live ∈ placed, live.stop ≤ height
  · rw [cutAll_eq_self below ring.filled]
    exact .inr ⟨rfl, rfl⟩
  push Not at below
  obtain ⟨live, member, above⟩ := below
  rcases eq_nil_or_concat' placed with rfl | ⟨front, last, rfl⟩
  · cases member
  refine .inl ⟨front.map (segment codec), last.segment codec, by simp, ?_⟩
  rcases mem_append.mp member with earlier | isLast
  · have under := (pairwise_append.mp ring.apart).2.2 live earlier last (by simp)
    exact above.trans_le (under.trans (Nat.le_add_right ..))
  · rw [mem_singleton.mp isLast] at above
    exact above

theorem truncateFrom_effect (positive : 0 < quota.slots) (ring : Ring codec quota placed)
    (stagedFits : ∀ archive ∈ staged, Storable codec quota archive) (cuttable : Cuttable codec height placed) :
    Effect codec quota (truncateFrom codec quota height) placed staged fun next later =>
      next = cutAll height placed ∧ later = staged := by
  have left := ring.cutAll cuttable
  have announced := truncating_settled ring staged height
  have toAfter : ∀ current, Truncating codec quota placed staged height current →
      Between codec quota placed staged (cutAll height placed) staged current :=
    fun current under => .inr (.inl (.truncating ring cuttable under rfl))
  have applies := (applyTruncation_completes positive ring cuttable announced).mono toAfter
  refine .inr ⟨_, staged, (), left, stagedFits, ⟨rfl, rfl⟩, ?_⟩
  refine Completes.bind (.change (.inl rfl) applies.here) (applies.bind ?_)
  exact clearTruncateIntent_completes applies.there rfl (.inr (.inl (recovering_settled left staged)))

theorem applyPrunePlan_effect [DecidableEq τ] {requested minimum : Nat} (ring : Ring codec quota placed)
    (stagedFits : ∀ archive ∈ staged, Storable codec quota archive) (floor : minimum ≠ 0) (token : τ) :
    Effect codec quota (applyPrunePlan codec quota requested minimum token) placed staged
      fun next later => (pruned ⟨requested, minimum⟩ placed).length < 2 ^ 32 ∧
        next = unpruned ⟨requested, minimum⟩ placed ∧ later = staged := by
  refine .readIndex (.lift fun plan planned => ?_)
  obtain ⟨_, isPlan, same⟩ | ⟨_, _, fault⟩ := buildPrunePlan_eq ring.toOnDisk ⟨requested, minimum⟩
  · rw [same] at planned
    cases planned
    split
    · exact .fails _
    split
    · next nothing =>
      have same : unpruned ⟨requested, minimum⟩ placed = placed := by
        rw [unpruned, ← isPlan.removed, nothing, drop_zero]
      exact .unchanged ring stagedFits ⟨isPlan.few, same.symm, rfl⟩ plan
    have left := ring_unpruned ring ⟨requested, minimum⟩
    have applies := (@applyPruning_completes _ _ _ _ _ staged ⟨requested, minimum⟩ ring floor isPlan.few rfl).mono
      fun _ => @Recovering.between _ _ _ placed _ _ staged _
    have clears := clearPruneIntent_completes applies.there (recovering_settled left staged).between
    refine .inr ⟨_, staged, plan, left, stagedFits, ⟨isPlan.few, rfl, rfl⟩, ?_⟩
    refine Completes.bind (.change (.inl rfl) applies.here) ?_
    exact applies.bind (clears.bind (.pure clears.there))
  · rw [fault] at planned
    cases planned

variable {blockCount : Nat}

/-- The blocks can be read at consecutive heights. -/
def Holds (folder : LedgerDirectory) (first : Nat) (blocks : List BlockBytes) : Prop :=
  ∀ offset block, blocks[offset]? = some block → readBlock folder (first + offset) = .ok (some block)

theorem holds_of_retainedBytesMatch {first : Nat}
    (same : retainedBytesMatch folder folder.readIndex first blocks = .ok true) : Holds folder first blocks := by
  induction blocks generalizing first with
  | nil =>
    intro offset block found
    cases found
  | cons expected _ ih =>
    simp only [retainedBytesMatch, ite_error_eq_ok, bind_eq_ok] at same
    obtain ⟨_, _, isRead, same⟩ := same
    split at same
    · cases same
    rename_i actual
    split at same
    · cases same
    rename_i equal
    have isFirst : actual = expected := not_not.mp equal
    intro offset block found
    cases offset with
    | zero =>
      cases found
      rw [← isFirst]
      exact isRead
    | succ offset =>
      have later := ih same offset block found
      rw [Nat.add_assoc, Nat.add_comm 1 offset] at later
      exact later

theorem retainedNext_eq (onDisk : OnDisk codec quota placed) :
    (indexOf codec quota placed).segments.getLast?.mapM segmentEndExclusive =
      (.ok (placed.getLast?.map stop) : Except LedgerError _) := getLast?_mapM fun _ => segmentEndExclusive_eq onDisk

variable (positive : 0 < quota.slots) (ring : Ring codec quota placed)
include positive ring

theorem publishStagedLocked_effect (storable : Storable codec quota archive) (follows : Follows placed archive) :
    Effect codec quota (publishStagedLocked codec quota archive
      (indexOf codec quota placed)) placed staged fun next later =>
        later = none ∧ Appends placed archive next := by
  have onDisk := published_onDisk positive ring storable follows
  rw [publishStagedLocked, if_neg (Nat.not_lt.mpr storable.bytes), nextSlot_eq positive]
  refine .inr ⟨_, none, (), ring_keep onDisk (published_chained ring follows) (published_ordered ring), nofun,
    ⟨rfl, appends_published positive ring storable follows⟩, publish_completes positive ring storable follows rfl⟩

variable (stagedFits : ∀ archive ∈ staged, Storable codec quota archive)
include stagedFits

theorem appendStaged_effect {firstHeight : Nat} (fits : firstHeight + blocks.length < 2 ^ 32) :
    Effect codec quota (appendLocked codec quota firstHeight blocks >>= fun _ => removeStaged) placed staged
      fun next later => later = none ∧ Appends placed ⟨firstHeight, blocks⟩ next := by
  rcases appendLocked_effect positive ring stagedFits fits with
    ⟨fault, refuses⟩ | ⟨next, later, _, after, _, ⟨kept, appends⟩, completes⟩
  · exact .inl ⟨fault, refuses.bind⟩
  rw [kept] at completes
  refine .inr ⟨next, none, (), after, nofun, ⟨rfl, appends⟩, ?_⟩
  have wider : ∀ current, Between codec quota placed staged next staged current →
      Between codec quota placed staged next none current := by
    rintro current (before | published | published)
    · exact .inl before
    · exact .inr (.inr published)
    · exact .inr (.inr published)
  exact (completes.mono wider).bind
    (.change (.inr (.inr (recovering_settled after staged))) (.inr (.inl (recovering_settled after none))))

theorem commitStaged_effect : Effect codec quota (commitStaged codec quota blockCount) placed staged fun next later =>
      later = none ∧ ∃ archive, staged = some archive ∧ blockCount ≤ archive.blocks.length ∧
        (Appends placed ⟨archive.firstHeight, archive.blocks.take blockCount⟩ next ∨
          next = placed ∧ Holds (settled codec quota placed staged) archive.firstHeight
            (archive.blocks.take blockCount)) := by
  rw [commitStaged]
  split
  · exact .fails _
  refine .read (.lift fun archive isStaged => ?_)
  have stagedArchive : staged = some archive := require_eq_ok.mp isStaged
  have storable := stagedFits archive stagedArchive
  split
  · exact .fails _
  rename_i enough
  have part : (archive.blocks.take blockCount).length ≤ archive.blocks.length := (take_sublist _ _).length_le
  have heights := storable.heights
  refine .lift fun retainedNext isNext => ?_
  have ends : placed.getLast?.map stop = retainedNext :=
    Except.ok.inj ((retainedNext_eq ring.toOnDisk).symm.trans isNext)
  split
  · next extends' =>
    have follows : Follows placed archive := by
      intro last isLast
      rw [← ends, mem_def.mp isLast] at extends'
      simpa using extends'
    split
    · next whole =>
      refine (publishStagedLocked_effect positive ring storable follows).mono fun next later changed => ?_
      refine ⟨changed.1, archive, stagedArchive, Nat.le_of_not_lt enough, .inl ?_⟩
      rw [whole, take_length]
      exact changed.2
    · refine (appendStaged_effect positive ring stagedFits (by omega)).mono fun next later changed => ?_
      exact ⟨changed.1, archive, stagedArchive, Nat.le_of_not_lt enough, .inl changed.2⟩
  · split
    · refine .lift fun same matched => ?_
      split
      · next isSame =>
        rw [isSame] at matched
        refine (change_staged_effect ring (fun _ absent => (not_mem_none _ absent).elim) rfl).mono fun next later
          changed => ?_
        exact ⟨changed.2, archive, stagedArchive, Nat.le_of_not_lt enough,
          .inr ⟨changed.1, holds_of_retainedBytesMatch matched⟩⟩
      · exact .fails _
    · exact .fails _

end

variable {disk : List Placed} {block : BlockBytes}

def Placed.Covers (live : Placed) (height : Nat) : Prop := live.first ≤ height ∧ height < live.stop

instance (live : Placed) (height : Nat) : Decidable (live.Covers height) := inferInstanceAs (Decidable (_ ∧ _))

/-- The block that the archives hold at a height. -/
def contentAt (disk : List Placed) (height : Nat) : Option BlockBytes :=
  (disk.find? fun live => decide (live.Covers height)).bind fun live => live.archive.blocks[height - live.first]?

theorem find?_eq_of_forall_mem {test other : Placed → Bool} (same : ∀ live ∈ disk, test live = other live) :
    disk.find? test = disk.find? other := by
  induction disk with
  | nil => rfl
  | cons _ _ ih =>
    rw [List.forall_mem_cons] at same
    rw [List.find?_cons, List.find?_cons, same.1, ih same.2]

theorem contentAt_cons (first : Placed) (rest : List Placed) (height : Nat) : contentAt (first :: rest) height =
      if first.Covers height then first.archive.blocks[height - first.first]? else contentAt rest height := by
  rw [contentAt, List.find?_cons]
  by_cases covers : first.Covers height
  · rw [decide_eq_true covers, if_pos covers]
    rfl
  · rw [decide_eq_false covers, if_neg covers]
    rfl

theorem covers_of_getElem? {live : Placed} (above : live.first ≤ height)
    (found : live.archive.blocks[height - live.first]? = some block) : live.Covers height := by
  obtain ⟨_, -⟩ := List.getElem?_eq_some_iff.mp found
  refine ⟨above, ?_⟩
  rw [stop, count]
  omega

section
variable (apart : disk.Pairwise fun lower upper => lower.stop ≤ upper.first)
include apart

theorem contentAt_eq_some : contentAt disk height = some block ↔
      ∃ live ∈ disk, live.first ≤ height ∧ live.archive.blocks[height - live.first]? = some block := by
  induction disk with
  | nil => simp [contentAt]
  | cons _ _ ih =>
    obtain ⟨above, apart⟩ := List.pairwise_cons.mp apart
    rw [contentAt_cons, List.exists_mem_cons_iff, ← ih apart]
    split
    · next covers =>
      refine ⟨fun found => .inl ⟨covers.1, found⟩, ?_⟩
      rintro (⟨_, found⟩ | found)
      · exact found
      obtain ⟨live, member, starts, -⟩ := (ih apart).mp found
      have := above live member
      have := covers.2
      omega
    · next outside =>
      refine ⟨.inr, ?_⟩
      rintro (⟨starts, found⟩ | found)
      · exact absurd (covers_of_getElem? starts found) outside
      · exact found

theorem contentAt_isSome : (∃ block, contentAt disk height = some block) ↔ ∃ live ∈ disk, live.Covers height := by
  constructor
  · rintro ⟨_, found⟩
    obtain ⟨live, member, above, isBlock⟩ := (contentAt_eq_some apart).mp found
    exact ⟨live, member, covers_of_getElem? above isBlock⟩
  rintro ⟨live, member, above, below⟩
  have inside : height - live.first < live.archive.blocks.length := by
    rw [stop, count] at below
    omega
  exact ⟨_, (contentAt_eq_some apart).mpr ⟨live, member, above, List.getElem?_eq_getElem inside⟩⟩

end

theorem segmentContains_eq (onDisk : OnDisk codec quota disk) {live : Placed} (member : live ∈ disk) (height : Nat) :
    segmentContains (live.segment codec) height = decide (live.Covers height) := by
  rw [segmentContains, checkedAdd_segment onDisk member, any_some, ← Bool.decide_and]
  rfl

theorem readBlock_settled (onDisk : OnDisk codec quota placed) (staged : Option Archive) (height : Nat) :
    readBlock (settled codec quota placed staged) height = .ok (contentAt placed height) := by
  have search : ((placed.map (segment codec)).find? fun segment => segmentContains segment height) =
      (placed.find? fun live => decide (live.Covers height)).map (segment codec) := by
    rw [List.find?_map]
    exact congrArg _ (find?_eq_of_forall_mem fun live member => segmentContains_eq onDisk member height)
  rw [readBlock, readBlockFromIndex, contentAt]
  simp only [settled, LedgerDirectory.readIndex, getD_some, indexFor_segments, search]
  cases found : placed.find? fun live => decide (live.Covers height) with
  | none => rfl
  | some live =>
    have member := List.mem_of_find?_eq_some found
    obtain ⟨_, below⟩ : live.Covers height := by simpa using List.find?_some found
    have inside : height - live.first < live.archive.blocks.length := by
      rw [stop, count] at below
      omega
    have stands : filesOf placed (live.segment codec).slot = some live.archive := filesOf_of_mem onDisk.slots member
    have isBlock : live.archive.blocks[height - (live.segment codec).firstHeight]? =
        some (live.archive.blocks[height - live.first]) := List.getElem?_eq_getElem inside
    simp only [map_some, stands, require, ok_bind, bind_some]
    rw [if_neg (by simp [Placed.segment, segmentOf]), isBlock, List.getElem?_eq_getElem inside]
    rfl

theorem covered_range (chained : Chained disk) (filled : ∀ live ∈ disk, 0 < live.count) :
    ∃ low high, (∀ last ∈ disk.getLast?, last.stop = high) ∧ (∀ first ∈ disk.head?, first.first = low) ∧
      ∀ height, (∃ live ∈ disk, live.Covers height) ↔ low ≤ height ∧ height < high := by
  induction disk with
  | nil => exact ⟨0, 0, by simp, by simp, by simp⟩
  | cons first rest ih =>
    obtain ⟨low, high, ends, starts, covers⟩ :=
      ih chained.tail fun live member => filled live (List.mem_cons_of_mem _ member)
    cases rest with
    | nil =>
      simp [Placed.Covers]
    | cons second _ =>
      have meets : first.stop = low := (List.isChain_cons_cons.mp chained).1.trans (starts second rfl)
      have longer : low < high := by
        have := (covers second.first).mp ⟨second, List.mem_cons_self, Nat.le_refl _,
          Nat.lt_add_of_pos_right (filled second (by simp))⟩
        omega
      refine ⟨first.first, high, fun last isLast => ends last (by simpa using isLast), by simp, fun height => ?_⟩
      rw [List.exists_mem_cons_iff, covers height, Placed.Covers, meets]
      rw [stop] at meets
      omega

theorem contentAt_append_some {front back : List Placed}
    (apart : (front ++ back).Pairwise fun lower upper => lower.stop ≤ upper.first) :
    contentAt (front ++ back) height = some block ↔
      contentAt front height = some block ∨ contentAt back height = some block := by
  obtain ⟨inFront, inBack, -⟩ := List.pairwise_append.mp apart
  rw [contentAt_eq_some apart, contentAt_eq_some inFront, contentAt_eq_some inBack]
  simp [or_and_right, exists_or]

section
variable {archive : Archive}

theorem contentAt_appended (after : OnDisk codec quota next) (appends : Appends placed archive next)
    (above : archive.firstHeight ≤ height) (isBlock : archive.blocks[height - archive.firstHeight]? = some block) :
    contentAt next height = some block := by
  obtain ⟨-, _, slot, -, rfl⟩ := appends
  exact (contentAt_eq_some after.apart).mpr ⟨⟨slot, archive⟩, by simp, above, isBlock⟩

theorem contentAt_of_appends (onDisk : OnDisk codec quota placed) (after : OnDisk codec quota next)
    (appends : Appends placed archive next) (found : contentAt next height = some block) :
    archive.firstHeight ≤ height ∧ archive.blocks[height - archive.firstHeight]? = some block ∨
      height < archive.firstHeight ∧ contentAt placed height = some block := by
  obtain ⟨-, _, slot, suffix, rfl⟩ := appends
  obtain ⟨live, member, above, isBlock⟩ := (contentAt_eq_some after.apart).mp found
  rcases List.mem_append.mp member with isKept | isNew
  · have below : live.stop ≤ archive.firstHeight :=
      (List.pairwise_append.mp after.apart).2.2 live isKept ⟨slot, archive⟩ (by simp)
    have covers := covers_of_getElem? above isBlock
    refine .inr ⟨covers.2.trans_le below, ?_⟩
    exact (contentAt_eq_some onDisk.apart).mpr ⟨live, suffix.subset isKept, above, isBlock⟩
  · rw [List.mem_singleton.mp isNew] at above isBlock
    exact .inl ⟨above, isBlock⟩

end

theorem mem_cutAll (onDisk : OnDisk codec quota placed) {removed : Nat} {live : Placed} : live ∈ cutAll removed placed ↔
      ∃ before ∈ placed, before.first < removed ∧ live = ⟨before.slot, cut removed before.archive⟩ := by
  simp [cutAll, mem_takeWhile_below onDisk, and_assoc, eq_comm]

theorem contentAt_cutAll (ring : Ring codec quota placed) {removed : Nat} (cuttable : Cuttable codec removed placed)
    (height : Nat) :
    contentAt (cutAll removed placed) height = if height < removed then contentAt placed height else none := by
  refine Option.ext fun block => ?_
  rw [contentAt_eq_some (ring.cutAll cuttable).apart]
  constructor
  · rintro ⟨_, isCut, above, isBlock⟩
    obtain ⟨before, member, -, rfl⟩ := (mem_cutAll ring.toOnDisk).mp isCut
    simp only [first, cut, List.getElem?_take] at isBlock
    split at isBlock
    · next inside =>
      rw [if_pos (by omega), contentAt_eq_some ring.apart]
      exact ⟨before, member, above, isBlock⟩
    · cases isBlock
  · intro found
    split at found
    · next below =>
      obtain ⟨before, member, above, isBlock⟩ := (contentAt_eq_some ring.apart).mp found
      have starts : before.archive.firstHeight ≤ height := above
      refine ⟨_, (mem_cutAll ring.toOnDisk).mpr ⟨before, member, above.trans_lt below, rfl⟩, above, ?_⟩
      simp only [first, cut, List.getElem?_take]
      rw [if_pos (by omega)]
      exact isBlock
    · cases found

theorem contentAt_unpruned (onDisk : OnDisk codec quota placed) {intent : LedgerPruneIntent} {plan : LedgerPrunePlan}
    (isPlan : PlanFor intent placed plan) (height : Nat) :
    contentAt (unpruned intent placed) height =
      if plan.effectiveThroughHeight.any fun through => decide (height ≤ through) then none
      else contentAt placed height := by
  have whole := pruned_append_unpruned intent placed
  rw [isPlan.effective]
  rcases List.eq_nil_or_concat' (pruned intent placed) with nothing | ⟨_, last, isPruned⟩
  · rw [nothing, List.nil_append] at whole
    rw [nothing, whole]
    simp
  rw [isPruned] at whole ⊢
  have onDisk' := whole.symm ▸ onDisk
  have apart := List.pairwise_append.mp onDisk'.apart
  have filled : 0 < last.count := onDisk'.filled last (by simp)
  simp only [List.getLast?_concat, map_some, any_some, decide_eq_true_eq]
  refine Option.ext fun block => ?_
  split
  · next below =>
    refine iff_of_false (fun found => ?_) (by simp)
    obtain ⟨live, member, above, -⟩ := (contentAt_eq_some apart.2.1).mp found
    have under := apart.2.2 last (by simp) live member
    have ends : last.stop = last.first + last.count := rfl
    omega
  · next above =>
    nth_rewrite 2 [← whole]
    rw [contentAt_append_some onDisk'.apart]
    refine ⟨.inr, ?_⟩
    rintro (found | found)
    · obtain ⟨live, member, starts, isBlock⟩ := (contentAt_eq_some apart.1).mp found
      have covers := covers_of_getElem? starts isBlock
      have below : live.stop ≤ last.stop := by
        rcases List.mem_append.mp member with earlier | isLast
        · have under := (List.pairwise_append.mp apart.1).2.2 live earlier last (by simp)
          exact under.trans (Nat.le_add_right ..)
        · rw [List.mem_singleton.mp isLast]
      have ends : height < live.stop := covers.2
      omega
    · exact found

end Rbtc.Ledger
