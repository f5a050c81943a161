import Rbtc.Foundation.Windows
import Rbtc.Foundation.Words
import Mathlib.Data.Finset.Card

/-! Network time (`NetworkTime` in `node.rs`): the median of what peers report, one sample for each network group.
A minority of groups cannot move it, and the order of reports does not matter. -/

namespace Rbtc.Node

open Foundation List

inductive IpAddr where
  | v4 (octets : Fin 4 → UInt8)
  | v6 (octets : Fin 16 → UInt8)

inductive TimeNetworkGroup where
  | ipv4 (octets : UInt8 × UInt8)
  | ipv6 (octets : UInt8 × UInt8 × UInt8 × UInt8)
  deriving DecidableEq

/-- The first two octets of the IPv4 address that `::ffff:0:0/96` maps. -/
def ipv4MappedGroup (octets : Fin 16 → UInt8) : Option (UInt8 × UInt8) :=
  if (∀ index : Fin 16, index.val < 10 → octets index = 0) ∧ octets 10 = 0xff ∧ octets 11 = 0xff then
    some (octets 12, octets 13)
  else none

def timeNetworkGroup : IpAddr → TimeNetworkGroup
  | .v4 octets => .ipv4 (octets 0, octets 1)
  | .v6 octets =>
    match ipv4MappedGroup octets with
    | some group => .ipv4 group
    | none => .ipv6 (octets 0, octets 1, octets 2, octets 3)

def peerAt (network : UInt8) : IpAddr := .v4 fun index => if index = 0 then network else 1

def minNetworkTimeSamples : Nat := 5

def maxNetworkTimeSamples : Nat := 200

def maxNetworkTimeAdjustmentSecs : Int := 70 * 60

/-- What peers reported, one offset for each network group. The order of the samples does not matter. -/
structure NetworkTime where
  offsets : List (TimeNetworkGroup × Int)
  offsetSeconds : Int
  usable : Bool
  deriving DecidableEq

namespace NetworkTime

def default : NetworkTime := ⟨[], 0, false⟩

def sample (time : NetworkTime) (remote : IpAddr) (peerTime : Int) (localTime : Nat) :
    List (TimeNetworkGroup × Int) :=
  if time.offsets.length < maxNetworkTimeSamples ∧ timeNetworkGroup remote ∉ time.offsets.map Prod.fst then
    time.offsets ++ [(timeNetworkGroup remote, saturateInt 64 (peerTime - localTime))]
  else time.offsets

def observe (time : NetworkTime) (remote : IpAddr) (peerTime : Int) (localTime : Nat) : NetworkTime :=
  let offsets := time.sample remote peerTime localTime
  if minNetworkTimeSamples ≤ offsets.length then
    let median := ((offsets.map Prod.snd).insertionSort (· ≤ ·)).getD (offsets.length / 2) 0
    if median.natAbs ≤ maxNetworkTimeAdjustmentSecs.toNat then ⟨offsets, median, true⟩
    else ⟨offsets, 0, false⟩
  else { time with offsets }

def adjustedTime (time : NetworkTime) (localTime : Nat) : Nat :=
  (max 0 (min (saturateInt 64 (localTime + time.offsetSeconds)) (2 ^ 32 - 1))).toNat

end NetworkTime

structure TimeReport where
  remote : IpAddr
  peerTime : Int
  localTime : Nat

namespace TimeReport

def group (report : TimeReport) : TimeNetworkGroup := timeNetworkGroup report.remote

def offset (report : TimeReport) : Int := saturateInt 64 (report.peerTime - report.localTime)

/-- The offset that the first report of a group gives. -/
def firstOffset (reports : List TimeReport) (group : TimeNetworkGroup) : Option Int :=
  (reports.find? (·.group = group)).map offset

end TimeReport

open TimeReport

namespace NetworkTime

abbrev hear (time : NetworkTime) (report : TimeReport) : NetworkTime :=
  time.observe report.remote report.peerTime report.localTime

def observeAll (reports : List TimeReport) : NetworkTime := reports.foldl hear default

variable (offsets : List (TimeNetworkGroup × Int))

def median : Int := upperMedian (offsets.map Prod.snd) 0

/-- The offset that the samples alone give. -/
def applied : Int :=
  if minNetworkTimeSamples ≤ offsets.length ∧ (median offsets).natAbs ≤ maxNetworkTimeAdjustmentSecs.toNat then
    median offsets
  else 0

/-- One offset for each group, that of its first report, and what they give is applied. -/
structure Sampled (reports : List TimeReport) (time : NetworkTime) : Prop where
  nodup : (time.offsets.map Prod.fst).Nodup
  first : ∀ entry ∈ time.offsets, firstOffset reports entry.1 = some entry.2
  complete : time.offsets.length < maxNetworkTimeSamples → ∀ report ∈ reports, report.group ∈ time.offsets.map Prod.fst
  settled : time.offsetSeconds = applied time.offsets

variable {reports reports' : List TimeReport} {time time' : NetworkTime} {report : TimeReport}

theorem firstOffset_eq_some {group : TimeNetworkGroup} {offset : Int}
    (isFirst : firstOffset reports group = some offset) :
    ∃ report ∈ reports, report.group = group := by
  obtain ⟨report, found, -⟩ := Option.map_eq_some_iff.mp isFirst
  exact ⟨report, mem_of_find?_eq_some found, by simpa using find?_some found⟩

theorem median_eq : ((offsets.map Prod.snd).insertionSort (· ≤ ·)).getD (offsets.length / 2) 0 = median offsets := by
  rw [median, upperMedian, length_insertionSort, length_map]

theorem observe_spec (settled : time.offsetSeconds = applied time.offsets) :
    (time.hear report).offsets = time.sample report.remote report.peerTime report.localTime ∧
      (time.hear report).offsetSeconds = applied (time.hear report).offsets := by
  have grows : time.offsets.length ≤ (time.sample report.remote report.peerTime report.localTime).length := by
    unfold sample
    split <;> simp
  simp only [observe, median_eq]
  split_ifs with enough inRange
  · exact ⟨rfl, (if_pos ⟨enough, inRange⟩).symm⟩
  · exact ⟨rfl, (if_neg fun both => inRange both.2).symm⟩
  · refine ⟨rfl, settled.trans ?_⟩
    exact (if_neg fun both => enough (both.1.trans grows)).trans (if_neg fun both => enough both.1).symm

theorem Sampled.step (sampled : Sampled reports time) : Sampled (reports ++ [report]) (time.hear report) := by
  obtain ⟨offsets, settled⟩ := @observe_spec _ report sampled.settled
  have earlier : ∀ entry ∈ time.offsets, firstOffset (reports ++ [report]) entry.1 = some entry.2 := by
    intro entry member
    obtain ⟨_, isFirst, same⟩ := Option.map_eq_some_iff.mp (sampled.first entry member)
    rw [firstOffset, find?_append, isFirst, Option.some_or, Option.map_some, same]
  by_cases fresh : time.offsets.length < maxNetworkTimeSamples ∧ report.group ∉ time.offsets.map Prod.fst
  · replace offsets := offsets.trans (if_pos fresh)
    refine ⟨?_, ?_, ?_, settled⟩ <;> rw [offsets]
    · rw [map_append]
      exact sampled.nodup.append (nodup_singleton _) (disjoint_singleton.mpr fresh.2)
    · refine forall_mem_append.mpr ⟨earlier, forall_mem_singleton.mpr ?_⟩
      have unheard : reports.find? (·.group = report.group) = none := find?_eq_none.mpr fun other member same =>
        fresh.2 (of_decide_eq_true same ▸ sampled.complete fresh.1 other member)
      show firstOffset (reports ++ [report]) report.group = some report.offset
      simp [firstOffset, unheard]
    · rw [map_append]
      exact fun _ => forall_mem_append.mpr
        ⟨fun other member => mem_append_left _ (sampled.complete fresh.1 other member),
        forall_mem_singleton.mpr (mem_append_right _ (mem_singleton_self _))⟩
  · replace offsets := offsets.trans (if_neg fresh)
    refine ⟨?_, ?_, ?_, settled⟩ <;> rw [offsets]
    · exact sampled.nodup
    · exact earlier
    · exact fun room => forall_mem_append.mpr ⟨sampled.complete room, forall_mem_singleton.mpr (by
        by_contra unknown
        exact fresh ⟨room, unknown⟩)⟩

theorem observeAll_concat : observeAll (reports ++ [report]) = (observeAll reports).hear report :=
  foldl_concat ..

theorem observeAll_sampled (reports : List TimeReport) : Sampled reports (observeAll reports) := by
  induction reports using reverseRecOn with
  | nil => exact ⟨nodup_nil, nofun, fun _ => nofun, rfl⟩
  | append_singleton reports report ih =>
    rw [observeAll_concat]
    exact ih.step

theorem prefix_observeAll (reports later : List TimeReport) :
    (observeAll reports).offsets <+: (observeAll (reports ++ later)).offsets := by
  induction later using reverseRecOn with
  | nil => rw [append_nil]
  | append_singleton later report ih =>
    refine ih.trans ?_
    rw [← append_assoc, observeAll_concat, (observe_spec (observeAll_sampled _).settled).1, sample]
    split
    · exact prefix_append ..
    · exact prefix_refl _

theorem Sampled.mem_iff (sampled : Sampled reports time)
    (few : (reports.map group).toFinset.card ≤ maxNetworkTimeSamples) (entry : TimeNetworkGroup × Int) :
    entry ∈ time.offsets ↔ firstOffset reports entry.1 = some entry.2 := by
  have complete : (reports.map group).toFinset ⊆ (time.offsets.map Prod.fst).toFinset := by
    by_cases room : time.offsets.length < maxNetworkTimeSamples
    · intro group heard
      obtain ⟨report, member, rfl⟩ := mem_map.mp (mem_toFinset.mp heard)
      exact mem_toFinset.mpr (sampled.complete room report member)
    refine (Finset.eq_of_subset_of_card_le (fun group known => ?_) ?_).ge
    · obtain ⟨known, sample, rfl⟩ := mem_map.mp (mem_toFinset.mp known)
      obtain ⟨report, member, same⟩ := firstOffset_eq_some (sampled.first _ sample)
      exact mem_toFinset.mpr (same ▸ mem_map_of_mem member)
    · rw [toFinset_card_of_nodup sampled.nodup, length_map]
      omega
  refine ⟨sampled.first _, fun isFirst => ?_⟩
  obtain ⟨report, member, isGroup⟩ := firstOffset_eq_some isFirst
  obtain ⟨other, member, same⟩ := mem_map.mp (mem_toFinset.mp (complete (mem_toFinset.mpr (mem_map_of_mem member))))
  have isFirst' := sampled.first other member
  rw [same, isGroup, isFirst] at isFirst'
  rwa [show entry = other from Prod.ext (isGroup.symm.trans same.symm) (Option.some.inj isFirst')]

theorem Sampled.offsetSeconds_eq (sampled : Sampled reports time) (sampled' : Sampled reports' time')
    (few : (reports.map group).toFinset.card ≤ maxNetworkTimeSamples)
    (few' : (reports'.map group).toFinset.card ≤ maxNetworkTimeSamples)
    (same : ∀ group, firstOffset reports group = firstOffset reports' group) :
    time.offsetSeconds = time'.offsetSeconds := by
  have perm : time.offsets.Perm time'.offsets := (perm_ext_iff_of_nodup sampled.nodup.of_map sampled'.nodup.of_map).mpr
    fun entry => by rw [sampled.mem_iff few, sampled'.mem_iff few', same]
  rw [sampled.settled, sampled'.settled, applied, applied, median, median, perm.length_eq,
    upperMedian_perm (perm.map _)]

/-- The offset is bounded, a group is sampled once and by its first report, a majority within an interval holds
the median there, and first reports decide whatever their order. -/
theorem resists_minority (reports : List TimeReport) :
    let time := observeAll reports
    time.offsetSeconds.natAbs ≤ 70 * 60 ∧ (time.offsets.map Prod.fst).Nodup ∧
    (∀ entry ∈ time.offsets, firstOffset reports entry.1 = some entry.2) ∧
    (time.offsets.length < 200 → ∀ report ∈ reports, report.group ∈ time.offsets.map Prod.fst) ∧
    (∀ later, time.offsets <+: (observeAll (reports ++ later)).offsets) ∧
    (∀ low high, time.offsets.length < 2 * (time.offsets.map Prod.snd).countP
      (fun offset => low ≤ offset ∧ offset ≤ high) →
      low ≤ median time.offsets ∧ median time.offsets ≤ high ∧ (time.offsetSeconds = median time.offsets ∨
        time.offsetSeconds = 0 ∧ (time.offsets.length < 5 ∨ 70 * 60 < (median time.offsets).natAbs))) ∧
    ∀ reports', (∀ group, firstOffset reports group = firstOffset reports' group) →
      (reports.map group).toFinset.card ≤ 200 → (reports'.map group).toFinset.card ≤ 200 →
      time.offsetSeconds = (observeAll reports').offsetSeconds := by
  have sampled := observeAll_sampled reports
  refine ⟨?_, sampled.nodup, sampled.first, sampled.complete, prefix_observeAll reports, fun low high majority => ?_,
    fun reports' same few few' => sampled.offsetSeconds_eq (observeAll_sampled reports') few few' same⟩
  · rw [sampled.settled, applied]
    split_ifs with inRange
    · exact inRange.2
    · decide
  rw [← length_map Prod.snd] at majority
  obtain ⟨above, below⟩ := upperMedian_of_majority 0 majority
  refine ⟨above, below, ?_⟩
  rw [sampled.settled, applied]
  split_ifs with inRange
  · exact .inl rfl
  · rw [not_and_or, Nat.not_le, Nat.not_le] at inRange
    exact .inr ⟨rfl, inRange⟩

/-- Three groups agree on ten seconds; two others report over two weeks, and one of them twice. -/
def lyingReports : List TimeReport :=
  [⟨peerAt 1, 1_300_000, 1_000⟩, ⟨peerAt 2, 1_400_000, 1_000⟩, ⟨peerAt 3, 1_010, 1_000⟩, ⟨peerAt 1, 1_500_000, 1_000⟩,
    ⟨peerAt 4, 1_012, 1_002⟩, ⟨peerAt 5, 1_013, 1_003⟩]

theorem resists_minority_of_two : 10 ≤ median (observeAll lyingReports).offsets ∧
    median (observeAll lyingReports).offsets ≤ 10 ∧ (observeAll lyingReports).offsetSeconds = 10 := by
  obtain ⟨-, -, -, -, -, majority, -⟩ := resists_minority lyingReports
  obtain ⟨above, below, -⟩ := majority 10 10 (by decide)
  exact ⟨above, below, by decide⟩

end NetworkTime

end Rbtc.Node
