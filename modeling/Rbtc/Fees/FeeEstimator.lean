import Rbtc.Foundation.Windows
import Rbtc.Foundation.Words
import Rbtc.Bitcoin.Primitives
import Mathlib.Data.List.Chain
import Mathlib.Data.List.Dedup
import Mathlib.Algebra.Order.BigOperators.Group.List
import Mathlib.Data.List.Flatten
import Mathlib.Data.List.Perm.Subperm
import Mathlib.Order.Minimal

/-! The fee estimator: confirmation observations of admitted transactions, the rate read off them, and how they
follow the active chain. -/

namespace Rbtc.Fees

open Foundation Bitcoin List Option

def maxActivePoolTracks : Nat := 64
def maxBlockHistory : Nat := 1_008
def maxConfirmedObservations : Nat := 4_096
def maxPendingObservations : Nat := maxConfirmedObservations + maxActivePoolTracks
def maxPolicyVsize : Nat := 400_000
def maxMoneySats : Nat := 21_000_000 * 100_000_000
def minEstimateObservations : Nat := 3
def requiredSuccessPercent : Nat := 85

structure FeeTrack where
  txid : Txid
  feeSats : Nat
  policyVsize : Nat
  deriving DecidableEq

structure FeeEstimate where
  targetBlocks : Nat
  feeRateSatVb : Nat
  considered : Nat
  successes : Nat
  deriving DecidableEq

structure TrackedFee where
  txid : Txid
  firstSeenHeight : Nat
  feeSats : Nat
  policyVsize : Nat
  deriving DecidableEq

structure ConfirmedBlock where
  height : Nat
  hash : BlockHash
  parent : BlockHash
  observations : List TrackedFee
  deriving DecidableEq

/-- Blocks are listed newest first, pending observations in no particular order. -/
structure EstimatorState where
  tipHeight : Nat
  tipHash : BlockHash
  pending : List TrackedFee
  blocks : List ConfirmedBlock
  deriving DecidableEq

inductive FeeEstimatorError where
  | malformed (text : String)
  | tipMismatch (height : Nat) (hash parent : BlockHash) (tipHeight : Nat) (tipHash : BlockHash)
  deriving DecidableEq

def TrackedFee.rateSatKvb (tracked : TrackedFee) : Nat :=
  min (tracked.feeSats * 1_000 / tracked.policyVsize) (2 ^ 64 - 1)

variable (blocks : List ConfirmedBlock)

def confirmedObservationCount : Nat :=
  totalSize (fun block => block.observations.length) blocks

def confirmedIds : List Txid :=
  blocks.flatMap fun block => (block.observations.map TrackedFee.txid).reverse

def pruneHistory : List ConfirmedBlock :=
  (trimBack (fun block => block.observations.length) maxBlockHistory maxConfirmedObservations blocks
    (confirmedObservationCount blocks)).1

def validateTrack (feeSats policyVsize : Nat) : Except FeeEstimatorError Unit := do
  ensure (feeSats ≤ maxMoneySats) (.malformed "fee observation exceeds MoneyRange")
  ensure (policyVsize ≠ 0 ∧ policyVsize ≤ maxPolicyVsize) (.malformed "fee observation policy vsize is invalid")

def validateObservation (height : Nat) (confirmed : List Txid) (tracked : TrackedFee) :
    Except FeeEstimatorError (List Txid) := do
  validateTrack tracked.feeSats tracked.policyVsize
  ensure (tracked.firstSeenHeight ≤ height) (.malformed "fee observation predates no confirmation opportunity")
  ensure (tracked.txid ∉ confirmed) (.malformed "duplicate confirmed fee observation")
  return tracked.txid :: confirmed

def validateBlock (progress : Option (Nat × BlockHash) × List Txid) (block : ConfirmedBlock) :
    Except FeeEstimatorError (Option (Nat × BlockHash) × List Txid) := do
  ensure (∀ previous ∈ progress.1, block.height = previous.1 + 1 ∧ block.parent = previous.2)
    (.malformed "fee-estimator block history is disconnected")
  let confirmed ← foldOutcome (validateObservation block.height) progress.2 block.observations
  return (some (block.height, block.hash), confirmed)

def validateState (state : EstimatorState) : Except FeeEstimatorError Unit := do
  ensure (state.pending.length ≤ maxPendingObservations ∧ state.blocks.length ≤ maxBlockHistory ∧
    confirmedObservationCount state.blocks ≤ maxConfirmedObservations)
    (.malformed "fee-estimator resource bound exceeded")
  let progress ← foldOutcome validateBlock (none, []) state.blocks.reverse
  ensure (∀ previous ∈ progress.1, previous = (state.tipHeight, state.tipHash))
    (.malformed "fee-estimator history does not end at its tip")
  ensure (∀ tracked ∈ state.pending, tracked.txid ∉ progress.2)
    (.malformed "fee observation is both pending and confirmed")
  foldOutcome (fun _ tracked => validateTrack tracked.feeSats tracked.policyVsize) () state.pending

structure WellFormed (state : EstimatorState) : Prop where
  few_pending : state.pending.length ≤ maxPendingObservations
  few_blocks : state.blocks.length ≤ maxBlockHistory
  few_confirmed : confirmedObservationCount state.blocks ≤ maxConfirmedObservations
  linked : state.blocks.IsChain fun newer older => newer.height = older.height + 1 ∧ newer.parent = older.hash
  timely : ∀ block ∈ state.blocks, ∀ tracked ∈ block.observations,
    validateTrack tracked.feeSats tracked.policyVsize = .ok () ∧ tracked.firstSeenHeight ≤ block.height
  once : (confirmedIds state.blocks).Nodup
  tip : ∀ newest ∈ state.blocks.head?, newest.height = state.tipHeight ∧ newest.hash = state.tipHash
  apart : ∀ tracked ∈ state.pending, tracked.txid ∉ confirmedIds state.blocks
  tracks : ∀ tracked ∈ state.pending, validateTrack tracked.feeSats tracked.policyVsize = .ok ()

theorem validateObservations_eq_ok {height : Nat} {before after : List Txid} {observations : List TrackedFee}
    (once : before.Nodup) : foldOutcome (validateObservation height) before observations = .ok after ↔
      (∀ tracked ∈ observations, validateTrack tracked.feeSats tracked.policyVsize = .ok () ∧
        tracked.firstSeenHeight ≤ height) ∧
      after = (observations.map TrackedFee.txid).reverse ++ before ∧ after.Nodup := by
  induction observations generalizing before with
  | nil =>
    simp only [foldOutcome_nil, Except.ok.injEq]
    exact ⟨fun same => ⟨nofun, same.symm, same ▸ once⟩, fun facts => facts.2.1.symm⟩
  | cons _ _ ih =>
    rw [foldOutcome_cons]
    simp only [validateObservation, bind_eq_ok, ensure_eq_ok, pure_eq_ok, forall_mem_cons, map_cons,
      reverse_cons, append_assoc]
    constructor
    · rintro ⟨_, ⟨_, valid, _, early, _, fresh, rfl⟩, remaining⟩
      obtain ⟨others, isAfter, nodup⟩ := (ih (nodup_cons.mpr ⟨fresh, once⟩)).mp remaining
      exact ⟨⟨⟨valid, early⟩, others⟩, isAfter, nodup⟩
    rintro ⟨⟨⟨valid, early⟩, others⟩, isAfter, nodup⟩
    have nodupFirst := (isAfter ▸ nodup).of_append_right
    exact ⟨_, ⟨(), valid, (), early, (), (nodup_cons.mp nodupFirst).1, rfl⟩,
      (ih nodupFirst).mpr ⟨others, isAfter, nodup⟩⟩

theorem validateBlocks_eq_ok {blocks : List ConfirmedBlock} {progress : Option (Nat × BlockHash) × List Txid} :
    foldOutcome validateBlock (none, []) blocks.reverse = .ok progress ↔
      blocks.IsChain (fun newer older => newer.height = older.height + 1 ∧ newer.parent = older.hash) ∧
      (∀ block ∈ blocks, ∀ tracked ∈ block.observations,
        validateTrack tracked.feeSats tracked.policyVsize = .ok () ∧ tracked.firstSeenHeight ≤ block.height) ∧
      (confirmedIds blocks).Nodup ∧
      progress = (blocks.head?.map fun newest => (newest.height, newest.hash), confirmedIds blocks) := by
  induction blocks generalizing progress with
  | nil => simp [confirmedIds, eq_comm]
  | cons _ _ ih =>
    rw [reverse_cons, foldOutcome_append]
    simp only [foldOutcome_singleton, ih, validateBlock, bind_eq_ok, ensure_eq_ok, pure_eq_ok, forall_mem_cons,
      isChain_cons]
    constructor
    · rintro ⟨_, ⟨linked, timely, once, rfl⟩, _, next, _, observed, rfl⟩
      obtain ⟨onTime, rfl, nodup⟩ := (validateObservations_eq_ok once).mp observed
      refine ⟨⟨fun block isHead => ?_, linked⟩, ⟨onTime, timely⟩, nodup, rfl⟩
      exact next (block.height, block.hash) (mem_map.mpr ⟨block, isHead, rfl⟩)
    rintro ⟨⟨next, linked⟩, ⟨onTime, timely⟩, nodup, rfl⟩
    refine ⟨_, ⟨linked, timely, nodup.of_append_right, rfl⟩, (), ?_, _,
      (validateObservations_eq_ok nodup.of_append_right).mpr ⟨onTime, rfl, nodup⟩, rfl⟩
    intro previous isPrevious
    obtain ⟨block, isHead, rfl⟩ := mem_map.mp isPrevious
    exact next block isHead

theorem validateTracks_eq_ok {pending : List TrackedFee} {before done : Unit} :
    foldOutcome (fun _ tracked => validateTrack tracked.feeSats tracked.policyVsize) before pending = .ok done ↔
      ∀ tracked ∈ pending, validateTrack tracked.feeSats tracked.policyVsize = .ok () := by
  induction pending generalizing before with
  | nil => simp
  | cons _ _ ih =>
    simp only [foldOutcome_cons, bind_eq_ok, ih, forall_mem_cons]
    tauto

theorem validateState_eq_ok {state : EstimatorState} {done : Unit} :
    validateState state = .ok done ↔ WellFormed state := by
  simp only [validateState, bind_eq_ok, ensure_eq_ok, validateTracks_eq_ok, validateBlocks_eq_ok]
  constructor
  · rintro ⟨_, ⟨fewPending, fewBlocks, fewConfirmed⟩, _, ⟨linked, timely, once, rfl⟩, _, tip, _, apart, tracks⟩
    refine ⟨fewPending, fewBlocks, fewConfirmed, linked, timely, once, fun newest isHead => ?_, apart, tracks⟩
    exact Prod.mk.inj (tip _ (mem_map.mpr ⟨newest, isHead, rfl⟩))
  intro valid
  refine ⟨(), ⟨valid.few_pending, valid.few_blocks, valid.few_confirmed⟩, _,
    ⟨valid.linked, valid.timely, valid.once, rfl⟩, (), fun previous isPrevious => ?_, (), valid.apart, valid.tracks⟩
  obtain ⟨newest, isHead, rfl⟩ := mem_map.mp isPrevious
  exact Prod.ext (valid.tip newest isHead).1 (valid.tip newest isHead).2

namespace EstimatorState

variable (state : EstimatorState)

def confirmed : List (Nat × TrackedFee) :=
  state.blocks.flatMap fun block => block.observations.map (block.height, ·)

def observations : List TrackedFee := state.confirmed.map Prod.snd ++ state.pending

def delay (height : Nat) (tracked : TrackedFee) : Nat := saturatingAdd 32 (height - tracked.firstSeenHeight) 1

def age (tracked : TrackedFee) : Nat :=
  saturatingAdd 32 (state.tipHeight - tracked.firstSeenHeight)
    (if tracked.firstSeenHeight ≤ state.tipHeight then 1 else 0)

def considered (target : Nat) (keeps : TrackedFee → Bool) : Nat :=
  state.confirmed.countP (fun entry => keeps entry.2) +
    state.pending.countP fun tracked => keeps tracked && decide (target ≤ state.age tracked)

def successes (target : Nat) (keeps : TrackedFee → Bool) : Nat :=
  state.confirmed.countP fun entry => keeps entry.2 && decide (delay entry.1 entry.2 ≤ target)

def passes (target : Nat) (keeps : TrackedFee → Bool) : Bool :=
  decide (minEstimateObservations ≤ state.considered target keeps) &&
    decide (state.considered target keeps * requiredSuccessPercent ≤ state.successes target keeps * 100)

def atLeast (threshold : Nat) (tracked : TrackedFee) : Bool := decide (threshold ≤ tracked.rateSatKvb)

def rates : List Nat :=
  ((state.observations.map TrackedFee.rateSatKvb).filter (0 < ·)).dedup.insertionSort (· ≤ ·)

/-- The lowest observed rate that passes, rounded up to whole sat/vB. -/
def estimate (targetBlocks : Nat) : Except FeeEstimatorError (Option FeeEstimate) := do
  ensure (targetBlocks ≠ 0 ∧ targetBlocks ≤ maxBlockHistory) (.malformed "fee target is outside retained history")
  validateState state
  return (state.rates.find? fun threshold => state.passes targetBlocks (atLeast threshold)).map fun threshold =>
    { targetBlocks
      feeRateSatVb := min (threshold + 999) (2 ^ 64 - 1) / 1_000
      considered := min (state.considered targetBlocks (atLeast threshold)) (2 ^ 32 - 1)
      successes := min (state.successes targetBlocks (atLeast threshold)) (2 ^ 32 - 1) }

variable {state} {target : Nat}

theorem estimate_eq_ok {estimated : FeeEstimate} (succeeds : state.estimate target = .ok (some estimated)) :
    WellFormed state ∧ ∃ threshold, 0 < threshold ∧ threshold ∈ state.rates ∧
      state.passes target (atLeast threshold) = true ∧
      (∀ smaller ∈ state.rates, smaller < threshold → state.passes target (atLeast smaller) = false) ∧
      estimated.feeRateSatVb = min (threshold + 999) (2 ^ 64 - 1) / 1_000 ∧
      estimated.considered = min (state.considered target (atLeast threshold)) (2 ^ 32 - 1) ∧
      estimated.successes = min (state.successes target (atLeast threshold)) (2 ^ 32 - 1) := by
  simp only [estimate, bind_eq_ok, validateState_eq_ok, pure_eq_ok, map_eq_some_iff] at succeeds
  obtain ⟨_, -, _, valid, threshold, found, rfl⟩ := succeeds
  obtain ⟨passes, _, _, isRates, failed⟩ := find?_eq_some_iff_append.mp found
  have sorted : state.rates.Pairwise (· ≤ ·) := pairwise_insertionSort _ _
  have listed : threshold ∈ state.rates := isRates ▸ mem_append_right _ mem_cons_self
  refine ⟨valid, threshold, ?_, listed, passes, fun smaller member less => ?_, rfl, rfl, rfl⟩
  · simp only [rates, mem_insertionSort, mem_dedup, mem_filter, decide_eq_true_eq] at listed
    exact listed.2
  rw [isRates] at member sorted
  rcases mem_append.mp member with isBefore | isLater
  · simpa using failed smaller isBefore
  rcases mem_cons.mp isLater with same | isAfter
  · omega
  · have atMost := (pairwise_cons.mp (pairwise_append.mp sorted).2.1).1 smaller isAfter
    omega

/-- A later target turns failures into successes, and drops missed targets. -/
theorem passes_mono {sooner later : Nat} (le : sooner ≤ later) {keeps : TrackedFee → Bool}
    (passes : state.passes sooner keeps = true) : state.passes later keeps = true := by
  have fewer : state.considered later keeps ≤ state.considered sooner keeps := by
    refine Nat.add_le_add_left (countP_mono_left fun tracked _ kept => ?_) _
    simp only [Bool.and_eq_true, decide_eq_true_eq] at kept ⊢
    exact ⟨kept.1, le.trans kept.2⟩
  have more : state.successes sooner keeps ≤ state.successes later keeps := by
    refine countP_mono_left fun entry _ succeeded => ?_
    simp only [Bool.and_eq_true, decide_eq_true_eq] at succeeded ⊢
    exact ⟨succeeded.1, succeeded.2.trans le⟩
  have within : state.successes later keeps ≤ state.considered later keeps := by
    refine le_trans (countP_mono_left fun entry _ succeeded => ?_) (Nat.le_add_right _ _)
    exact (Bool.and_eq_true _ _ ▸ succeeded).1
  simp only [EstimatorState.passes, Bool.and_eq_true, decide_eq_true_eq] at passes ⊢
  unfold minEstimateObservations requiredSuccessPercent at passes ⊢
  omega

/-- Estimates do not increase with the target. -/
theorem estimate_antitone (state : EstimatorState) {sooner later : Nat} (le : sooner ≤ later)
    (retained : later ≤ maxBlockHistory) {estimated : FeeEstimate}
    (succeeds : state.estimate sooner = .ok (some estimated)) :
    ∃ other, state.estimate later = .ok (some other) ∧ other.feeRateSatVb ≤ estimated.feeRateSatVb := by
  have positive : sooner ≠ 0 := by
    simp only [estimate, bind_eq_ok, ensure_eq_ok] at succeeds
    obtain ⟨_, inside, -⟩ := succeeds
    exact inside.1
  obtain ⟨valid, threshold, -, listed, passes, -, isRate, -⟩ := estimate_eq_ok succeeds
  have passesLater := passes_mono le passes
  obtain ⟨found, isFound⟩ : ∃ found,
      state.rates.find? (fun threshold => state.passes later (atLeast threshold)) = some found :=
    isSome_iff_exists.mp (find?_isSome.mpr ⟨threshold, listed, passesLater⟩)
  have estimates : ∃ other, state.estimate later = .ok (some other) := by
    simp only [estimate, bind_eq_ok, ensure_eq_ok, validateState_eq_ok, isFound]
    exact ⟨_, (), ⟨by omega, retained⟩, (), valid, rfl⟩
  obtain ⟨other, isOther⟩ := estimates
  obtain ⟨-, lower, -, -, -, first, isLower, -⟩ := estimate_eq_ok isOther
  have atMost : lower ≤ threshold := by
    by_contra above
    rw [first threshold listed (by omega)] at passesLater
    cases passesLater
  refine ⟨other, isOther, ?_⟩
  rw [isRate, isLower]
  exact Nat.div_le_div_right (min_le_min_right _ (by omega))

def halfRates : EstimatorState :=
  ⟨1, ⟨1⟩, [], [⟨1, ⟨1⟩, ⟨0⟩, [⟨⟨1⟩, 1, 3, 2⟩, ⟨⟨2⟩, 1, 3, 2⟩, ⟨⟨3⟩, 1, 3, 2⟩]⟩]⟩

theorem estimate_antitone_half_rates : ∃ other, halfRates.estimate 2 = .ok (some other) ∧ other.feeRateSatVb ≤ 2 :=
  estimate_antitone halfRates (show 1 ≤ 2 by decide) (by decide)
    (show halfRates.estimate 1 = .ok (some ⟨1, 2, 3, 3⟩) by decide)

def paysAtLeast (rate : Nat) (tracked : TrackedFee) : Bool := decide (rate * tracked.policyVsize ≤ tracked.feeSats)

/-- The observations the estimate counts: the confirmed ones, and the pending ones that missed the target. -/
def counted (state : EstimatorState) (target : Nat) : List TrackedFee :=
  state.confirmed.map Prod.snd ++ state.pending.filter fun tracked => target ≤ state.age tracked

/-- The lowest positive observed rate at which the requirement is met. -/
structure Lowest (state : EstimatorState) (target threshold : Nat) : Prop where
  observed : ∃ tracked ∈ state.observations, tracked.rateSatKvb = threshold
  positive : 0 < threshold
  met : state.passes target (atLeast threshold) = true
  below : ∀ tracked ∈ state.observations, 0 < tracked.rateSatKvb → tracked.rateSatKvb < threshold →
    state.passes target (atLeast tracked.rateSatKvb) = false

/-- Rounding that rate up to a whole one passes over no counted observation, the whole rate below it keeps an
observation more, and all observations together do not meet the requirement. -/
structure RoundsExactly (state : EstimatorState) (target threshold : Nat) : Prop where
  lowest : state.Lowest target threshold
  counted : ∀ tracked ∈ state.counted target, threshold ≤ tracked.rateSatKvb →
    paysAtLeast ((threshold + 999) / 1_000) tracked = true
  keeps_more : 1_000 < threshold → ∃ tracked ∈ state.observations, tracked.rateSatKvb < threshold ∧
    paysAtLeast ((threshold + 999) / 1_000 - 1) tracked = true
  unmet : state.passes target (paysAtLeast 0) = false

variable {tracked : TrackedFee}

theorem observed_track (valid : WellFormed state) (member : tracked ∈ state.observations) :
    tracked.feeSats ≤ maxMoneySats ∧ tracked.policyVsize ≠ 0 := by
  have checked : validateTrack tracked.feeSats tracked.policyVsize = .ok () := by
    rcases mem_append.mp member with isConfirmed | isPending
    · obtain ⟨_, isEntry, rfl⟩ := mem_map.mp isConfirmed
      obtain ⟨block, isBlock, isObservation⟩ := mem_flatMap.mp isEntry
      obtain ⟨observation, observed, rfl⟩ := mem_map.mp isObservation
      exact (valid.timely block isBlock observation observed).1
    · exact valid.tracks tracked isPending
  simp only [validateTrack, bind_eq_ok, ensure_eq_ok] at checked
  obtain ⟨_, small, sized, -⟩ := checked
  exact ⟨small, sized⟩

theorem rateSatKvb_eq (small : tracked.feeSats ≤ maxMoneySats) :
    tracked.rateSatKvb = tracked.feeSats * 1_000 / tracked.policyVsize ∧ tracked.rateSatKvb ≤ maxMoneySats * 1_000 := by
  have bounded := Nat.div_le_self (tracked.feeSats * 1_000) tracked.policyVsize
  unfold TrackedFee.rateSatKvb maxMoneySats at *
  omega

theorem atLeast_eq_paysAtLeast (valid : WellFormed state) (member : tracked ∈ state.observations) (rate : Nat) :
    atLeast (1_000 * rate) tracked = paysAtLeast rate tracked := by
  obtain ⟨small, sized⟩ := observed_track valid member
  refine decide_eq_decide.mpr ?_
  rw [(rateSatKvb_eq small).1, Nat.le_div_iff_mul_le (Nat.pos_of_ne_zero sized), Nat.mul_assoc,
    Nat.mul_comm tracked.feeSats]
  exact Nat.mul_le_mul_left_iff (by decide)

theorem counts_lt (valid : WellFormed state) (target : Nat) (keeps : TrackedFee → Bool) :
    state.considered target keeps < 2 ^ 32 ∧ state.successes target keeps < 2 ^ 32 := by
  have length : state.confirmed.length = confirmedObservationCount state.blocks := by
    simp [confirmed, confirmedObservationCount, totalSize]
  have fewConfirmed := valid.few_confirmed
  have fewPending := valid.few_pending
  have first := countP_le_length (l := state.confirmed) (p := fun entry => keeps entry.2)
  have second := countP_le_length (l := state.pending)
    (p := fun tracked => keeps tracked && decide (target ≤ state.age tracked))
  have third := countP_le_length (l := state.confirmed)
    (p := fun entry => keeps entry.2 && decide (delay entry.1 entry.2 ≤ target))
  unfold considered successes
  unfold maxPendingObservations maxActivePoolTracks at fewPending
  unfold maxConfirmedObservations at fewConfirmed fewPending
  omega

theorem considered_eq (state : EstimatorState) (target : Nat) (keeps : TrackedFee → Bool) :
    state.considered target keeps = (state.counted target).countP keeps := by
  rw [considered, counted, countP_append, countP_map, countP_filter]
  rfl

theorem mem_observations (member : tracked ∈ state.counted target) : tracked ∈ state.observations :=
  (mem_append.mp member).elim (mem_append_left _) fun isPending => mem_append_right _ (mem_filter.mp isPending).1

theorem counts_congr {keeps other : TrackedFee → Bool}
    (same : ∀ tracked ∈ state.counted target, keeps tracked = other tracked) :
    state.considered target keeps = state.considered target other ∧
      state.successes target keeps = state.successes target other := by
  rw [considered_eq, considered_eq]
  refine ⟨countP_congr fun tracked member => by rw [same tracked member], countP_congr fun entry member => ?_⟩
  rw [same entry.2 (mem_append_left _ (mem_map_of_mem member))]

theorem passes_congr {keeps other : TrackedFee → Bool}
    (same : ∀ tracked ∈ state.counted target, keeps tracked = other tracked) :
    state.passes target keeps = state.passes target other := by
  obtain ⟨considered, successes⟩ := counts_congr same
  rw [passes, passes, considered, successes]

/-- Keeping fewer observations, but as many of the counted ones, keeps the same counted ones. -/
theorem kept_of_considered_eq {keeps fewer : TrackedFee → Bool} (same : state.considered target keeps =
      state.considered target fewer)
        (le : ∀ tracked ∈ state.counted target, fewer tracked = true → keeps tracked = true) :
    ∀ tracked ∈ state.counted target, keeps tracked = true → fewer tracked = true := by
  rw [considered_eq, considered_eq] at same
  generalize state.counted target = observations at same le
  induction observations with
  | nil => nofun
  | cons first rest ih =>
    have atMost := countP_mono_left fun tracked member => le tracked (mem_cons_of_mem first member)
    have leFirst : (if fewer first = true then 1 else 0) ≤ if keeps first = true then 1 else 0 := by
      split
      · next chosen => rw [if_pos (le first mem_cons_self chosen)]
      · exact Nat.zero_le _
    rw [countP_cons, countP_cons] at same
    refine forall_mem_cons.mpr
      ⟨fun kept => ?_, ih (by omega) fun tracked member => le tracked (mem_cons_of_mem _ member)⟩
    by_contra dropped
    rw [if_pos kept, if_neg dropped] at same
    omega

theorem Lowest.unique {first second : Nat} (lowest : state.Lowest target first) (other : state.Lowest target second) :
    first = second := by
  obtain ⟨tracked, observed, rfl⟩ := lowest.observed
  obtain ⟨tracked', observed', rfl⟩ := other.observed
  rcases Nat.lt_trichotomy tracked.rateSatKvb tracked'.rateSatKvb with less | same | more
  · exact absurd lowest.met (by simp [other.below tracked observed lowest.positive less])
  · exact same
  · exact absurd other.met (by simp [lowest.below tracked' observed' other.positive more])

/-- A positive rate that keeps an observation below the lowest rate does not meet the requirement: it keeps what
the next observed rate keeps. -/
theorem Lowest.fails {threshold rate : Nat} (lowest : state.Lowest target threshold) (positive : 0 < rate)
    (observed : tracked ∈ state.observations) (kept : rate ≤ tracked.rateSatKvb)
    (less : tracked.rateSatKvb < threshold) :
    state.passes target (atLeast rate) = false := by
  obtain ⟨next, ⟨above, isNext⟩, first⟩ : ∃ next, (rate ≤ next.rateSatKvb ∧ next ∈ state.observations) ∧
      ∀ other ∈ state.observations, rate ≤ other.rateSatKvb → next.rateSatKvb ≤ other.rateSatKvb := by
    obtain ⟨next, isNext, least⟩ := exists_minimalFor_of_wellFoundedLT
      (fun other => rate ≤ other.rateSatKvb ∧ other ∈ state.observations) TrackedFee.rateSatKvb
        ⟨tracked, kept, observed⟩
    refine ⟨next, isNext, fun other seen atLeast => ?_⟩
    rcases Nat.le_total next.rateSatKvb other.rateSatKvb with le | le
    · exact le
    · exact least ⟨atLeast, seen⟩ le
  rw [← lowest.below next isNext (by omega) ((first tracked observed kept).trans_lt less)]
  refine passes_congr fun other member => decide_eq_decide.mpr ⟨fun paid => ?_, fun paid => above.trans paid⟩
  exact first other (mem_observations member) paid

theorem estimate_lowest {estimated : FeeEstimate} (succeeds : state.estimate target = .ok (some estimated)) :
    WellFormed state ∧ ∃ threshold, state.Lowest target threshold ∧
      estimated.feeRateSatVb = (threshold + 999) / 1_000 ∧
      estimated.considered = state.considered target (atLeast threshold) ∧
      estimated.successes = state.successes target (atLeast threshold) := by
  obtain ⟨valid, threshold, positive, listed, passes, first, isRate, isConsidered, isSuccesses⟩ :=
    estimate_eq_ok succeeds
  have mem_rates : ∀ rate, rate ∈ state.rates ↔
      (∃ tracked ∈ state.observations, tracked.rateSatKvb = rate) ∧ 0 < rate := by
    simp [rates]
  obtain ⟨tracked, observed, isThreshold⟩ := ((mem_rates _).mp listed).1
  have bounded := (rateSatKvb_eq (observed_track valid observed).1).2
  have few := counts_lt valid target (atLeast threshold)
  refine ⟨valid, threshold, ⟨⟨tracked, observed, isThreshold⟩, positive, passes, fun other seen above less => ?_⟩,
    ?_, ?_, ?_⟩
  · exact first _ ((mem_rates _).mpr ⟨⟨other, seen, rfl⟩, above⟩) less
  · unfold maxMoneySats at bounded
    omega
  · omega
  · omega

/-- The estimate is the lowest whole rate that meets the requirement, with the counts at that rate, exactly if
the rounding is exact. -/
theorem estimate_meets_requirement_iff {estimated : FeeEstimate}
    (succeeds : state.estimate target = .ok (some estimated)) :
    (state.passes target (paysAtLeast estimated.feeRateSatVb) = true ∧
      estimated.considered = state.considered target (paysAtLeast estimated.feeRateSatVb) ∧
      estimated.successes = state.successes target (paysAtLeast estimated.feeRateSatVb) ∧
      ∀ rate < estimated.feeRateSatVb, state.passes target (paysAtLeast rate) = false) ↔
    ∃ threshold, state.RoundsExactly target threshold := by
  obtain ⟨valid, threshold, lowest, isRate, isConsidered, isSuccesses⟩ := estimate_lowest succeeds
  have positive := lowest.positive
  have paid : ∀ rate, ∀ tracked ∈ state.observations, atLeast (1_000 * rate) tracked = paysAtLeast rate tracked :=
    fun rate tracked observed => atLeast_eq_paysAtLeast valid observed rate
  rw [isRate, isConsidered, isSuccesses]
  constructor
  · rintro ⟨-, sameCount, -, smallest⟩
    refine ⟨threshold, lowest, fun tracked member above => ?_, fun whole => ?_, smallest 0 (by omega)⟩
    · refine kept_of_considered_eq sameCount (fun other isCounted pays => ?_) tracked member (decide_eq_true above)
      rw [← paid _ other (mem_observations isCounted), atLeast, decide_eq_true_eq] at pays
      exact decide_eq_true (by omega)
    · by_contra none
      -- Then the whole rate below keeps what the lowest rate keeps, and meets the requirement as well.
      have same : state.passes target (atLeast threshold) =
          state.passes target (paysAtLeast ((threshold + 999) / 1_000 - 1)) := by
        refine passes_congr fun tracked member => Bool.eq_iff_iff.mpr ⟨fun kept => ?_, fun pays => ?_⟩
        · have above := of_decide_eq_true kept
          rw [← paid _ tracked (mem_observations member)]
          exact decide_eq_true (by omega)
        · by_contra below
          exact none ⟨tracked, mem_observations member, not_le.mp fun kept => below (decide_eq_true kept), pays⟩
      rw [smallest _ (by omega), lowest.met] at same
      cases same
  · rintro ⟨_, rounds⟩
    obtain rfl := lowest.unique rounds.lowest
    have same : ∀ tracked ∈ state.counted target, atLeast threshold tracked =
        paysAtLeast ((threshold + 999) / 1_000) tracked := by
      refine fun tracked member => Bool.eq_iff_iff.mpr ⟨fun kept => ?_, fun pays => ?_⟩
      · exact rounds.counted tracked member (of_decide_eq_true kept)
      · rw [← paid _ tracked (mem_observations member)] at pays
        have above := of_decide_eq_true pays
        exact decide_eq_true (by omega)
    refine ⟨passes_congr same ▸ lowest.met, (counts_congr same).1, (counts_congr same).2, fun rate less => ?_⟩
    rcases Nat.eq_zero_or_pos rate with rfl | above
    · exact rounds.unmet
    · obtain ⟨tracked, observed, below, pays⟩ := rounds.keeps_more (by omega)
      rw [← paid _ tracked observed] at pays
      have kept := of_decide_eq_true pays
      rw [← passes_congr fun other member => paid rate other (mem_observations member)]
      exact lowest.fails (by omega) observed (by omega) below

def cheaperPending : EstimatorState :=
  ⟨2, ⟨2⟩, [⟨⟨4⟩, 1, 4, 1⟩, ⟨⟨5⟩, 1, 4, 1⟩, ⟨⟨6⟩, 1, 4, 1⟩],
    [⟨2, ⟨2⟩, ⟨1⟩, [⟨⟨1⟩, 2, 5, 1⟩, ⟨⟨2⟩, 2, 5, 1⟩, ⟨⟨3⟩, 2, 5, 1⟩]⟩]⟩

theorem estimate_meets_requirement_of_cheaper : cheaperPending.passes 1 (paysAtLeast 5) = true ∧
    3 = cheaperPending.considered 1 (paysAtLeast 5) ∧ 3 = cheaperPending.successes 1 (paysAtLeast 5) ∧
    ∀ rate < 5, cheaperPending.passes 1 (paysAtLeast rate) = false :=
  (estimate_meets_requirement_iff (show cheaperPending.estimate 1 = .ok (some ⟨1, 5, 3, 3⟩) by decide)).mpr
    ⟨5_000, ⟨by decide, by decide, by decide, by decide⟩, by decide, by decide, by decide⟩

/-- The rate is rounded up to one that no observation pays. -/
theorem estimate_rounds_above_observations : halfRates.estimate 1 = .ok (some ⟨1, 2, 3, 3⟩) ∧
    halfRates.considered 1 (paysAtLeast 2) = 0 := by
  decide

end EstimatorState

open TrackedFee

def submit (submitted : List FeeTrack) (entry : FeeTrack) : Except FeeEstimatorError (List FeeTrack) := do
  validateTrack entry.feeSats entry.policyVsize
  ensure (entry.txid ∉ submitted.map FeeTrack.txid) (.malformed "duplicate pending transaction")
  return entry :: submitted

def trackOne (firstSeenHeight : Nat) (pending : List TrackedFee) (entry : FeeTrack) :
    Except FeeEstimatorError (List TrackedFee) :=
  match pending.find? (·.txid = entry.txid) with
  | some previous => do
    ensure (previous.feeSats = entry.feeSats ∧ previous.policyVsize = entry.policyVsize)
      (.malformed "pending transaction metadata changed")
    return pending
  | none => return ⟨entry.txid, firstSeenHeight, entry.feeSats, entry.policyVsize⟩ :: pending

def restore (pending : List TrackedFee) (observation : TrackedFee) : Except FeeEstimatorError (List TrackedFee) :=
  match pending.find? (·.txid = observation.txid) with
  | some previous => do
    ensure (previous = observation) (.malformed "restored fee observation conflicts with pending state")
    return pending
  | none => return observation :: pending

namespace EstimatorState

def fresh (genesis : BlockHash) : EstimatorState := ⟨0, genesis, [], []⟩

/-- A mutated state is validated before it is stored. The 16-bit counts of its encoding then fit. -/
def mutate {α : Type} (state : EstimatorState)
    (mutation : EstimatorState → Except FeeEstimatorError (EstimatorState × α)) :
    Except FeeEstimatorError (EstimatorState × α) := do
  let (next, result) ← mutation state
  validateState next
  return (next, result)

variable (state : EstimatorState)

def trackPool (active : List FeeTrack) (firstSeenHeight : Nat) :
    Except FeeEstimatorError (EstimatorState × Unit) := do
  ensure (active.length ≤ maxActivePoolTracks) (.malformed "too many pending fee observations")
  let submitted ← foldOutcome submit [] active
  state.mutate fun state => do
    let pending ← foldOutcome (trackOne firstSeenHeight)
      (state.pending.filter fun tracked => tracked.txid ∈ submitted.map FeeTrack.txid) submitted
    return ({ state with pending }, ())

def connectBlock (height : Nat) (hash parent : BlockHash) (transactionIds : List Txid) :
    Except FeeEstimatorError (EstimatorState × Nat) :=
  state.mutate fun state => do
    let expectedHeight ← require (checkedAdd 32 state.tipHeight 1) (.malformed "estimator height overflow")
    ensure (height = expectedHeight ∧ parent = state.tipHash)
      (.tipMismatch height hash parent state.tipHeight state.tipHash)
    let matched := state.pending.filter (·.txid ∈ transactionIds)
    return ({ tipHeight := height
              tipHash := hash
              pending := state.pending.filter (·.txid ∉ transactionIds)
              blocks := pruneHistory (⟨height, hash, parent, matched⟩ :: state.blocks) }, matched.length)

def disconnectTip (expectedHash : BlockHash) :
    Except FeeEstimatorError (EstimatorState × Nat) :=
  state.mutate fun state => do
    ensure (state.tipHash = expectedHash) (.malformed "disconnect hash is not the estimator tip")
    match state.blocks with
    | [] => .error (.malformed "estimator history does not retain the tip")
    | block :: older =>
      ensure (block.hash = expectedHash ∧ block.height = state.tipHeight)
        (.malformed "estimator tip history is inconsistent")
      let pending ← foldOutcome restore state.pending block.observations
      return (⟨state.tipHeight - 1, block.parent, pending, older⟩, block.observations.length)

def resetTip (height : Nat) (hash : BlockHash) :
    Except FeeEstimatorError (EstimatorState × Unit) :=
  state.mutate fun _ => return (⟨height, hash, [], []⟩, ())

end EstimatorState

inductive EstimatorEvent where
  | track (active : List FeeTrack) (firstSeenHeight : Nat)
  /-- The next block of the active chain. -/
  | connect (hash : BlockHash) (transactionIds : List Txid)
  /-- The estimator's tip leaves the active chain. -/
  | disconnect
  | reset (height : Nat) (hash : BlockHash)

def EstimatorState.after {α : Type} (state : EstimatorState)
    (result : Except FeeEstimatorError (EstimatorState × α)) : EstimatorState :=
  match result with
  | .ok (next, _) => next
  | .error _ => state

namespace EstimatorState

def step (state : EstimatorState) : EstimatorEvent → EstimatorState
  | .track active firstSeenHeight => state.after (state.trackPool active firstSeenHeight)
  | .connect hash ids => state.after (state.connectBlock (state.tipHeight + 1) hash state.tipHash ids)
  | .disconnect => state.after (state.disconnectTip state.tipHash)
  | .reset height hash => state.after (state.resetTip height hash)

/-- The condition on a step: no pending transaction of a connected block was first seen at a greater height. -/
def Opportune (state : EstimatorState) : EstimatorEvent → Prop
  | .connect _ ids => state.tipHeight + 1 < 2 ^ 32 ∧
      ∀ tracked ∈ state.pending, tracked.txid ∈ ids → tracked.firstSeenHeight ≤ state.tipHeight + 1
  | .track .. | .disconnect | .reset .. => True

def OpportuneAll : EstimatorState → List EstimatorEvent → Prop
  | _, [] => True
  | state, event :: rest => state.Opportune event ∧ OpportuneAll (state.step event) rest

/-- A state reached: it is valid, holds a transaction once, and its blocks' observations fit back into the pending
ones. -/
structure Sound (state : EstimatorState) : Prop where
  valid : WellFormed state
  keyed : (state.pending.map txid).Nodup
  room : state.pending.length + confirmedObservationCount state.blocks ≤ maxPendingObservations

variable {state : EstimatorState}

theorem mutate_eq_ok {α : Type} {mutation : EstimatorState → Except FeeEstimatorError (EstimatorState × α)}
    {next : EstimatorState} {result : α} :
    state.mutate mutation = .ok (next, result) ↔ mutation state = .ok (next, result) ∧ WellFormed next := by
  simp only [mutate, bind_eq_ok, validateState_eq_ok]
  constructor
  · rintro ⟨⟨_, _⟩, mutated, _, valid, same⟩
    cases same
    exact ⟨mutated, valid⟩
  · rintro ⟨mutated, valid⟩
    exact ⟨(next, result), mutated, (), valid, rfl⟩

theorem sound_fresh (height : Nat) (hash : BlockHash) : Sound ⟨height, hash, [], []⟩ :=
  ⟨⟨Nat.zero_le _, Nat.zero_le _, Nat.zero_le _, .nil, nofun, .nil, nofun, nofun, nofun⟩, .nil, Nat.zero_le _⟩

theorem nodup_submitted {active submitted after : List FeeTrack} (nodup : (submitted.map FeeTrack.txid).Nodup)
    (folded : foldOutcome submit submitted active = .ok after) :
    (after.map FeeTrack.txid).Nodup ∧ after.length = submitted.length + active.length := by
  induction active generalizing submitted with
  | nil =>
    cases folded
    exact ⟨nodup, rfl⟩
  | cons _ _ ih =>
    simp only [foldOutcome_cons, submit, bind_eq_ok, ensure_eq_ok, pure_eq_ok] at folded
    obtain ⟨_, ⟨_, -, _, absent, rfl⟩, remaining⟩ := folded
    obtain ⟨unique, length⟩ := ih (by exact nodup_cons.mpr ⟨absent, nodup⟩) remaining
    refine ⟨unique, length.trans ?_⟩
    simp only [length_cons]
    omega

theorem keyed_tracked {firstSeenHeight : Nat} {ids : List Txid} {pending after : List TrackedFee}
    {entries : List FeeTrack}
    (listed : ∀ entry ∈ entries, entry.txid ∈ ids) (keyed : (pending.map txid).Nodup) (within : pending.map txid ⊆ ids)
    (folded : foldOutcome (trackOne firstSeenHeight) pending entries = .ok after) :
    (after.map txid).Nodup ∧ after.map txid ⊆ ids := by
  induction entries generalizing pending with
  | nil =>
    cases folded
    exact ⟨keyed, within⟩
  | cons entry _ ih =>
    obtain ⟨isListed, others⟩ := forall_mem_cons.mp listed
    simp only [foldOutcome_cons, bind_eq_ok, trackOne] at folded
    obtain ⟨_, tracked, remaining⟩ := folded
    cases found : pending.find? (·.txid = entry.txid) with
    | some _ =>
      simp only [found, bind_eq_ok, pure_eq_ok] at tracked
      obtain ⟨_, -, rfl⟩ := tracked
      exact ih others keyed within remaining
    | none =>
      simp only [found, pure_eq_ok] at tracked
      subst tracked
      have absent : entry.txid ∉ pending.map txid := by simpa using found
      exact ih others (by exact nodup_cons.mpr ⟨absent, keyed⟩) (by exact cons_subset.mpr ⟨isListed, within⟩) remaining

theorem Sound.track (sound : Sound state) (active : List FeeTrack) (firstSeenHeight : Nat) :
    Sound (state.step (.track active firstSeenHeight)) := by
  simp only [step, after]
  split
  · next next _ tracked =>
    simp only [trackPool, bind_eq_ok, ensure_eq_ok, mutate_eq_ok] at tracked
    obtain ⟨_, _, _, folded, ⟨pending, tracks, same⟩, valid⟩ := tracked
    cases same
    obtain ⟨_, length⟩ := @nodup_submitted _ [] _ .nil folded
    obtain ⟨keyed, within⟩ := keyed_tracked (fun entry member => mem_map_of_mem member)
      (sound.keyed.sublist (filter_sublist.map _)) (by
        intro txid member
        obtain ⟨_, kept, rfl⟩ := mem_map.mp member
        simpa using (mem_filter.mp kept).2) tracks
    refine ⟨valid, keyed, ?_⟩
    have atMost := (subperm_of_subset keyed within).length_le
    have confirmed : confirmedObservationCount state.blocks ≤ maxConfirmedObservations := valid.few_confirmed
    simp only [length_map, length, length_nil] at atMost
    show pending.length + confirmedObservationCount state.blocks ≤ maxConfirmedObservations + maxActivePoolTracks
    omega
  · exact sound

variable {kept blocks : List ConfirmedBlock}

theorem confirmedIds_sublist (sub : kept.Sublist blocks) :
    (confirmedIds kept).Sublist (confirmedIds blocks) := sub.flatMap _

theorem confirmedObservationCount_le (sub : kept.Sublist blocks) :
    confirmedObservationCount kept ≤ confirmedObservationCount blocks :=
  (sub.map _).sum_le_sum (by simp)

theorem pruneHistory_spec (blocks : List ConfirmedBlock) :
    pruneHistory blocks <+: blocks ∧ (pruneHistory blocks).length ≤ maxBlockHistory ∧
      confirmedObservationCount (pruneHistory blocks) ≤ maxConfirmedObservations := by
  have isPruned : pruneHistory blocks =
      fitting (fun block => block.observations.length) maxBlockHistory maxConfirmedObservations blocks := by
    rw [pruneHistory, confirmedObservationCount, trimBack_eq _ rfl]
  rw [isPruned]
  exact @fitting_spec _ (fun block => block.observations.length) _ _ blocks

/-- The tip with its confirmed block, before the oldest blocks go. -/
def confirming (state : EstimatorState) (hash : BlockHash) (ids : List Txid) : List ConfirmedBlock :=
  ⟨state.tipHeight + 1, hash, state.tipHash, state.pending.filter (·.txid ∈ ids)⟩ :: state.blocks

theorem foldOutcome_restore {pending observations : List TrackedFee}
    (once : ((observations.map txid).reverse ++ pending.map txid).Nodup) :
    foldOutcome restore pending observations = .ok (observations.reverse ++ pending) := by
  induction observations generalizing pending with
  | nil => rfl
  | cons first _ ih =>
    rw [map_cons, reverse_cons, append_assoc] at once
    have absent : pending.find? (·.txid = first.txid) = none := by
      have apart := (nodup_cons.mp once.of_append_right).1
      simpa using apart
    have restored : restore pending first = .ok (first :: pending) := by
      simp only [restore, absent]
      rfl
    rw [foldOutcome_cons, restored, ok_bind, ih (by exact once), reverse_cons, append_assoc, singleton_append]

section
variable (sound : Sound state)
include sound

theorem Sound.connected {hash : BlockHash} {ids : List Txid} (opportune : state.Opportune (.connect hash ids)) :
    Sound ⟨state.tipHeight + 1, hash, state.pending.filter (·.txid ∉ ids),
      pruneHistory (state.confirming hash ids)⟩ := by
  obtain ⟨valid, keyed, _⟩ := sound
  obtain ⟨initial, fewBlocks, fewConfirmed⟩ := pruneHistory_spec (state.confirming hash ids)
  have isPending {tracked : TrackedFee} {p : TrackedFee → Bool} (member : tracked ∈ state.pending.filter p) :
      tracked ∈ state.pending := mem_of_mem_filter member
  have matched {tracked : TrackedFee} (member : tracked ∈ state.pending.filter (·.txid ∈ ids)) :
      tracked.txid ∈ ids := of_decide_eq_true (mem_filter.mp member).2
  constructor
  · constructor
    · exact (length_filter_le _ _).trans valid.few_pending
    · exact fewBlocks
    · exact fewConfirmed
    · refine List.IsChain.prefix (isChain_cons.mpr ⟨fun older isHead => ?_, valid.linked⟩) initial
      obtain ⟨sameHeight, sameHash⟩ := valid.tip older isHead
      exact ⟨congrArg (· + 1) sameHeight.symm, sameHash.symm⟩
    · intro other member
      cases mem_cons.mp (initial.subset member) with
      | inl isNew =>
        rw [isNew]
        exact fun tracked isMatched => ⟨valid.tracks tracked (isPending isMatched),
          opportune.2 tracked (isPending isMatched) (matched isMatched)⟩
      | inr isOld => exact valid.timely other isOld
    · refine List.Nodup.sublist (confirmedIds_sublist initial.sublist) (List.Nodup.append ?_ valid.once ?_)
      · exact nodup_reverse.mpr (keyed.sublist (filter_sublist.map _))
      · intro txid isNew isOld
        obtain ⟨tracked, member, rfl⟩ := mem_map.mp (mem_reverse.mp isNew)
        exact valid.apart tracked (isPending member) isOld
    · intro newest isHead
      obtain ⟨rest, isKept⟩ := head?_eq_some_iff.mp isHead
      rw [show pruneHistory (state.confirming hash ids) = newest :: rest from isKept] at initial
      rw [(cons_prefix_cons.mp initial).1]
      exact ⟨rfl, rfl⟩
    · intro tracked member isConfirmed
      have confirmed := (confirmedIds_sublist initial.sublist).subset isConfirmed
      cases mem_append.mp confirmed with
      | inl isNew =>
        obtain ⟨_, isOther, same⟩ := mem_map.mp (mem_reverse.mp isNew)
        exact of_decide_eq_true (mem_filter.mp member).2 (same ▸ matched isOther)
      | inr isOld => exact valid.apart tracked (isPending member) isOld
    · exact fun tracked member => valid.tracks tracked (isPending member)
  · exact keyed.sublist (filter_sublist.map _)
  · have lengths := (filter_append_perm (fun tracked => decide (tracked.txid ∈ ids))
      state.pending).length_eq
    have atMost := confirmedObservationCount_le initial.sublist
    have counted : confirmedObservationCount (state.confirming hash ids) =
        (state.pending.filter (·.txid ∈ ids)).length + confirmedObservationCount state.blocks := rfl
    simp only [length_append, ← decide_not] at lengths
    show (state.pending.filter (·.txid ∉ ids)).length +
      confirmedObservationCount (pruneHistory (state.confirming hash ids)) ≤ _
    omega

theorem Sound.connect {hash : BlockHash} {ids : List Txid} (opportune : state.Opportune (.connect hash ids)) :
    ∃ next matched, state.connectBlock (state.tipHeight + 1) hash state.tipHash ids = .ok (next, matched) ∧
    Sound next := by
  have connected := sound.connected opportune
  refine ⟨_, (state.pending.filter (·.txid ∈ ids)).length, mutate_eq_ok.mpr ⟨?_, connected.valid⟩, connected⟩
  simp only [bind_eq_ok, require_eq_ok, ensure_eq_ok, checkedAdd_eq_some]
  exact ⟨_, ⟨opportune.1, rfl⟩, (), ⟨rfl, trivial⟩, rfl⟩

theorem Sound.disconnect (retained : state.blocks ≠ []) :
    ∃ next restored, state.disconnectTip state.tipHash = .ok (next, restored) ∧ Sound next := by
  obtain ⟨valid, keyed, room⟩ := sound
  obtain ⟨block, older, isBlocks⟩ := exists_cons_of_ne_nil retained
  obtain ⟨_, fewBlocks, fewConfirmed, linked, timely, once, tip, apart, tracks⟩ := valid
  rw [isBlocks] at room fewBlocks fewConfirmed linked timely once tip apart
  obtain ⟨isTip, isHash⟩ := tip block rfl
  have counted : confirmedObservationCount (block :: older) =
      block.observations.length + confirmedObservationCount older := rfl
  have unique : ((block.observations.map txid).reverse ++ state.pending.map txid).Nodup := by
    refine once.of_append_left.append keyed fun txid isNew isPending => ?_
    obtain ⟨tracked, member, rfl⟩ := mem_map.mp isPending
    exact apart tracked member (mem_append_left _ isNew)
  have sound : Sound ⟨state.tipHeight - 1, block.parent, block.observations.reverse ++ state.pending, older⟩ := by
    refine ⟨⟨?_, ?_, ?_, linked.tail, fun other member => timely other (.tail _ member), once.of_append_right,
      fun newest isHead => ?_, fun tracked member isConfirmed => ?_, fun tracked member => ?_⟩, ?_, ?_⟩
    · simp only [length_append, length_reverse]
      omega
    · exact (Nat.le_succ _).trans fewBlocks
    · show confirmedObservationCount older ≤ _
      omega
    · obtain ⟨_, parent⟩ := linked.rel_head? isHead
      exact ⟨show newest.height = state.tipHeight - 1 by omega, parent.symm⟩
    · rcases mem_append.mp member with isNew | isPending
      · exact disjoint_of_nodup_append once (mem_reverse.mpr (mem_map_of_mem (mem_reverse.mp isNew))) isConfirmed
      · exact apart tracked isPending (mem_append_right _ isConfirmed)
    · rcases mem_append.mp member with isNew | isPending
      · exact (timely block mem_cons_self tracked (mem_reverse.mp isNew)).1
      · exact tracks tracked isPending
    · simpa using unique
    · simp only [length_append, length_reverse]
      omega
  refine ⟨_, block.observations.length, mutate_eq_ok.mpr ⟨?_, sound.valid⟩, sound⟩
  simp only [isBlocks, isHash, isTip, foldOutcome_restore unique]
  rfl

theorem Sound.step {event : EstimatorEvent} (opportune : state.Opportune event) : Sound (state.step event) := by
  cases event with
  | track active firstSeenHeight => exact sound.track active firstSeenHeight
  | connect hash _ =>
    obtain ⟨_, _, connected, after⟩ := sound.connect opportune
    simp only [EstimatorState.step, connected]
    exact after
  | disconnect =>
    by_cases retained : state.blocks = []
    · have refused : state.disconnectTip state.tipHash =
          .error (.malformed "estimator history does not retain the tip") := by
        simp only [disconnectTip, mutate, retained]
        rfl
      simp only [EstimatorState.step, refused]
      exact sound
    · obtain ⟨_, _, disconnected, after⟩ := sound.disconnect retained
      simp only [EstimatorState.step, disconnected]
      exact after
  | reset height hash =>
    exact sound_fresh height hash

theorem Sound.run {events : List EstimatorEvent} (opportune : state.OpportuneAll events) :
    Sound (events.foldl EstimatorState.step state) := by
  induction events generalizing state with
  | nil => exact sound
  | cons _ _ ih => exact ih (sound.step opportune.1) opportune.2

end

/-- Under the condition on each step the estimator can always follow the active chain. -/
theorem estimator_follows_chain (genesis : BlockHash) (events : List EstimatorEvent)
    (opportune : (fresh genesis).OpportuneAll events) :
    ∃ state, state = events.foldl EstimatorState.step (fresh genesis) ∧ validateState state = .ok () ∧
      (∀ hash ids, state.Opportune (.connect hash ids) →
        ∃ result, state.connectBlock (state.tipHeight + 1) hash state.tipHash ids = .ok result) ∧
      (state.blocks ≠ [] → ∃ result, state.disconnectTip state.tipHash = .ok result) := by
  have sound := (sound_fresh 0 genesis).run opportune
  refine ⟨_, rfl, validateState_eq_ok.mpr sound.valid, fun hash ids next => ?_, fun retained => ?_⟩
  · obtain ⟨_, _, connected, -⟩ := sound.connect next
    exact ⟨_, connected⟩
  · obtain ⟨_, _, disconnected, -⟩ := sound.disconnect retained
    exact ⟨_, disconnected⟩

/-- A transaction seen at height 1 and confirmed there; the tip then leaves the active chain. -/
theorem estimator_follows_chain_one_block : ∃ state,
    state = [EstimatorEvent.track [⟨⟨5⟩, 200, 100⟩] 1, .connect ⟨1⟩ [⟨5⟩]].foldl EstimatorState.step (fresh ⟨0⟩) ∧
      validateState state = .ok () ∧ (∀ hash ids, state.Opportune (.connect hash ids) →
        ∃ result, state.connectBlock (state.tipHeight + 1) hash state.tipHash ids = .ok result) ∧
      (state.blocks ≠ [] → ∃ result, state.disconnectTip state.tipHash = .ok result) :=
  estimator_follows_chain ⟨0⟩ _ ⟨trivial, ⟨by decide, by decide⟩, trivial⟩

/-- A transaction first seen for height 2 is confirmed at height 1 of the branch that replaces the first block. -/
theorem reorganisation_blocks_estimator : ∃ state,
    state = [EstimatorEvent.connect ⟨1⟩ [], .track [⟨⟨5⟩, 200, 100⟩] 2, .disconnect].foldl EstimatorState.step
      (fresh ⟨0⟩) ∧ state.tipHeight = 0 ∧ state.tipHash = ⟨0⟩ ∧ state.connectBlock 1 ⟨2⟩ ⟨0⟩ [⟨5⟩] =
      .error (.malformed "fee observation predates no confirmation opportunity") :=
  ⟨_, rfl, by decide, by decide, by decide⟩

end EstimatorState

end Rbtc.Fees
