import Rbtc.Headers.Context

/-! `expected_next_bits` gives what Bitcoin Core's `GetNextWorkRequired` gives for the branch. -/

namespace Rbtc.Headers

open Foundation Bitcoin HeaderDag List Option Table

section
variable (crate : HeaderCrate) (expand : Nat → Nat) (params : Params)

/-- The clamp, multiplication, division and cap of Core's `CalculateNextWorkRequired`; `expand` is
`SetCompact`. -/
def coreRetarget (baseBits : Nat) (timespan : Int) : Nat :=
  let shortest := params.powTargetTimespan / 4
  let longest := params.powTargetTimespan * 4
  let actual : Int := if timespan < shortest then shortest else if longest < timespan then longest else timespan
  crate.toCompactLossy
    (min (expand baseBits * actual.toNat / params.powTargetTimespan) params.maxAttainableTarget)

/-- The last header of a branch, newest first, that is not a minimum-difficulty exception. -/
def coreLastRegularBits (powLimit : Nat) : List Header → Nat
  | [] => 0
  | last :: older =>
    if older ≠ [] ∧ older.length % params.difficultyAdjustmentInterval ≠ 0 ∧ last.bits = powLimit then
      coreLastRegularBits powLimit older
    else last.bits

/-- Core's `GetNextWorkRequired` for a candidate on top of a branch, newest header first. -/
def coreNextWorkRequired (branch : List Header) (candidate : Header) : Nat :=
  match branch with
  | [] => 0
  | last :: _ =>
    let interval := params.difficultyAdjustmentInterval
    let powLimit := crate.toCompactLossy params.maxAttainableTarget
    if branch.length % interval ≠ 0 then
      if params.allowMinDifficultyBlocks then
        if last.time + params.powTargetSpacing * 2 < candidate.time then powLimit
        else coreLastRegularBits params powLimit branch
      else last.bits
    else
      let first := branch.getD (interval - 1) last
      if params.noPowRetargeting then last.bits
      else
        let baseBits := if params.network = .testnet4 then first.bits else last.bits
        coreRetarget crate expand params baseBits ((last.time : Int) - first.time)

end

theorem coreRetarget_sub (crate : HeaderCrate) (expand : Nat → Nat) (params : Params) (baseBits last first : Nat) :
    coreRetarget crate expand params baseBits ((last - first : Nat) : Int) =
      coreRetarget crate expand params baseBits ((last : Int) - first) := by
  rcases Nat.le_total first last with ordered | reversed
  · rw [Int.ofNat_sub ordered]
  have saturated : ((last - first : Nat) : Int) = 0 := by omega
  rw [saturated]
  unfold coreRetarget
  have sameSpan : ∀ shortest longest : Nat, (if (0 : Int) < shortest then (shortest : Int)
      else if (longest : Int) < 0 then longest else 0) = if (last : Int) - first < shortest then (shortest : Int)
        else if (longest : Int) < last - first then longest else last - first := by
    intro shortest longest
    split_ifs <;> omega
  simp only [sameSpan]

/-- `from_next_work_required` is Core's computation, and networks without retargeting start at the limit. -/
structure CoreArithmetic (crate : HeaderCrate) (expand : Nat → Nat) : Prop where
  retargets : ∀ bits elapsed params, crate.fromNextWorkRequired bits elapsed params =
    if params.noPowRetargeting then bits else coreRetarget crate expand params bits elapsed
  interval : ∀ network, 0 < (coreParams crate network).difficultyAdjustmentInterval
  network : ∀ network, (coreParams crate network).network = network
  limit : ∀ network, (coreParams crate network).noPowRetargeting = true → network ≠ .testnet4 ∧
    (crate.genesisHeader network).bits = crate.toCompactLossy (coreParams crate network).maxAttainableTarget

/-- Every retained header above genesis was accepted by `insert_contextual`, in some DAG on the same
deployments. -/
structure HeaderDag.Accepted (crate : HeaderCrate) (dag : HeaderDag) : Prop where
  valid : dag.Valid crate
  accepted : ∀ hash info, dag.headers.lookup hash = some info → 0 < info.height →
    ∃ (past next : HeaderDag) (adjustedTime : Nat), past.Valid crate ∧ past.deployments = dag.deployments ∧
      past.insertContextual crate info.header adjustedTime = .ok (next, info)

/-- The mutations that accept headers only after their contextual checks. -/
def DagOperation.Contextual : DagOperation → Prop
  | .insert _ => False
  | .insertContextual _ _ | .stageBatch _ _ _ | .evictLeaves _ _ _ _ => True

variable {dag next : HeaderDag}

namespace HeaderDag

def ancestorHeaders (dag : HeaderDag) : Nat → HeaderInfo → List Header
  | 0, current => [current.header]
  | rounds + 1, current =>
    current.header ::
      match dag.headers.lookup current.header.prevBlockhash with
      | none => []
      | some parent => ancestorHeaders dag rounds parent

/-- The ancestor path of a retained header, newest first. -/
def branchOf (dag : HeaderDag) (info : HeaderInfo) : List Header := dag.ancestorHeaders info.height info

variable {crate : HeaderCrate}

theorem Valid.ancestorHeaders_length (valid : dag.Valid crate) {rounds : Nat} {hash : BlockHash} {info : HeaderInfo}
    (found : dag.headers.lookup hash = some info) (within : rounds ≤ info.height) :
    (dag.ancestorHeaders rounds info).length = rounds + 1 := by
  induction rounds generalizing hash info with
  | zero => rfl
  | succ _ ih =>
    obtain ⟨_, isParent, admissible⟩ := valid.rooted.parent_of_pos found (by omega)
    have height := admissible.height_eq
    simp [ancestorHeaders, isParent, ih isParent (by omega)]

variable {info parent : HeaderInfo} {hash : BlockHash} {expand : Nat → Nat}
  {candidate header : Header} {adjustedTime : Nat} {rounds powLimit : Nat}

section
variable (valid : dag.Valid crate) (found : dag.headers.lookup hash = some info)
include valid found

theorem Valid.ancestorWalk_header {steps : Nat} {ancestor : HeaderInfo} (within : rounds ≤ info.height)
    (walked : dag.ancestorWalk steps info = some ancestor) (inside : steps ≤ rounds) :
    (dag.ancestorHeaders rounds info)[steps]? = some ancestor.header := by
  induction steps generalizing rounds hash info with
  | zero =>
    cases walked
    cases rounds <;> rfl
  | succ _ ih =>
    obtain ⟨smaller, rfl⟩ : ∃ smaller, rounds = smaller + 1 := ⟨rounds - 1, by omega⟩
    obtain ⟨_, isParent, admissible⟩ := valid.rooted.parent_of_pos found (by omega)
    have height := admissible.height_eq
    simp only [HeaderDag.ancestorWalk, isParent] at walked
    simp only [ancestorHeaders, isParent]
    exact ih isParent (by omega) walked (by omega)

theorem Valid.lastRegularBits_eq :
    dag.lastRegularBits dag.params.difficultyAdjustmentInterval powLimit info.height info =
      .ok (coreLastRegularBits dag.params powLimit (dag.branchOf info)) := by
  unfold branchOf
  generalize isHeight : info.height = rounds
  induction rounds generalizing hash info with
  | zero => simp [lastRegularBits, ancestorHeaders, coreLastRegularBits]
  | succ rounds ih =>
    obtain ⟨parent, isParent, admissible⟩ := valid.rooted.parent_of_pos found (by omega)
    have height := admissible.height_eq
    have length := @Valid.ancestorHeaders_length _ _ valid rounds _ _ isParent (by omega)
    have nonempty : dag.ancestorHeaders rounds parent ≠ [] := by
      intro empty
      rw [empty] at length
      cases length
    simp only [lastRegularBits, ancestorHeaders, isParent, coreLastRegularBits, length, isHeight, require, ok_bind,
      ih isParent (show parent.height = rounds by omega), ne_eq, nonempty, not_false_eq_true, true_and]
    split <;> rfl

end

theorem Valid.branchOf_cons (valid : dag.Valid crate) (isParent : dag.headers.lookup hash = some parent) :
    ∃ older, dag.branchOf parent = parent.header :: older ∧ (parent.header :: older).length = parent.height + 1 := by
  have length : (dag.branchOf parent).length = parent.height + 1 := valid.ancestorHeaders_length isParent le_rfl
  cases isBranch : parent.height <;> simp only [branchOf, isBranch] at length ⊢ <;> exact ⟨_, rfl, length⟩

theorem expectedNextBits_retarget (arithmetic : CoreArithmetic crate expand) (valid : dag.Valid crate)
    (isParent : dag.headers.lookup candidate.prevBlockhash = some parent) (fits : parent.height + 1 < 2 ^ 32)
    (boundary : (parent.height + 1) % dag.params.difficultyAdjustmentInterval = 0) :
    dag.expectedNextBits crate candidate =
      .ok (coreNextWorkRequired crate expand dag.params (dag.branchOf parent) candidate) := by
  have sum : checkedAdd 32 parent.height 1 = some (parent.height + 1) := checkedAdd_eq_some.mpr ⟨fits, rfl⟩
  have positive : 0 < dag.params.difficultyAdjustmentInterval := valid.params_eq ▸ arithmetic.interval _
  have reaches : dag.params.difficultyAdjustmentInterval ≤ parent.height + 1 :=
    Nat.le_of_dvd (Nat.succ_pos _) (Nat.dvd_of_mod_eq_zero boundary)
  obtain ⟨_, isBranch, length⟩ := valid.branchOf_cons isParent
  obtain ⟨first, walked, _⟩ :=
    valid.ancestorWalk (dag.params.difficultyAdjustmentInterval - 1) isParent (by omega)
  have isFirst : dag.ancestorAtHeight parent (parent.height + 1 - dag.params.difficultyAdjustmentInterval) =
      some first := by
    have steps : parent.height - (parent.height + 1 - dag.params.difficultyAdjustmentInterval) =
        dag.params.difficultyAdjustmentInterval - 1 := by omega
    rw [ancestorAtHeight, steps, walked, bind_some, if_pos (by omega)]
  have onBranch : (dag.branchOf parent).getD (dag.params.difficultyAdjustmentInterval - 1) parent.header =
      first.header := by
    rw [getD_eq_getElem?_getD, branchOf, valid.ancestorWalk_header isParent le_rfl walked (by omega), getD_some]
  have isCore : coreNextWorkRequired crate expand dag.params (dag.branchOf parent) candidate =
      if dag.params.noPowRetargeting then parent.header.bits
      else coreRetarget crate expand dag.params
        (if dag.params.network = .testnet4 then first.header.bits else parent.header.bits)
        ((parent.header.time) - first.header.time) := by
    rw [isBranch] at onBranch ⊢
    simp only [coreNextWorkRequired, length, boundary, ne_eq, not_true_eq_false, if_false, onBranch]
  simp only [expectedNextBits, isParent, require, ok_bind, sum, boundary, if_true, isFirst, arithmetic.retargets,
    isCore, coreRetarget_sub]
  split
  · next fixed =>
    have network : dag.params.network ≠ .testnet4 := by
      rw [valid.params_eq] at fixed ⊢
      rw [arithmetic.network]
      exact (arithmetic.limit _ fixed).1
    rw [if_neg network]
    rfl
  · rfl

theorem expectedNextBits_fixed (arithmetic : CoreArithmetic crate expand)
    (valid : dag.Valid crate) (fixed : dag.params.noPowRetargeting = true)
    (isParent : dag.headers.lookup candidate.prevBlockhash = some parent) (fits : parent.height + 1 < 2 ^ 32) :
    dag.expectedNextBits crate candidate = .ok parent.header.bits := by
  have sum : checkedAdd 32 parent.height 1 = some (parent.height + 1) := checkedAdd_eq_some.mpr ⟨fits, rfl⟩
  by_cases boundary : (parent.height + 1) % dag.params.difficultyAdjustmentInterval = 0
  · obtain ⟨_, isBranch, length⟩ := valid.branchOf_cons isParent
    rw [expectedNextBits_retarget arithmetic valid isParent fits boundary]
    rw [isBranch]
    simp [coreNextWorkRequired, length, boundary, fixed]
  · simp only [expectedNextBits, isParent, require, ok_bind, sum, boundary, fixed]
    rfl

theorem expectedNextBits_of_accepted (inserted : dag.insertContextual crate header adjustedTime = .ok (next, info)) :
    dag.expectedNextBits crate header = .ok header.bits := by
  obtain ⟨checked, -⟩ := insertContextual_eq_ok.mp inserted
  simp only [validateContext, bind_eq_ok, ensure_eq_ok] at checked
  obtain ⟨-, -, -, -, -, -, -, -, -, -, -, -, -, -, -, -, -, -, _, computed, same⟩ := checked
  rw [computed, same]

theorem coreLastRegularBits_limit {params : Params} {branch : List Header} (nonempty : branch ≠ [])
    (atLimit : ∀ header ∈ branch, header.bits = powLimit) : coreLastRegularBits params powLimit branch = powLimit := by
  induction branch with
  | nil => exact absurd rfl nonempty
  | cons last _ ih =>
    rw [coreLastRegularBits]
    split
    · next walks => exact ih walks.1 fun header member => atLimit header (mem_cons_of_mem _ member)
    · exact atLimit last mem_cons_self

theorem mem_ancestorHeaders
    (found : dag.headers.lookup hash = some info) (member : header ∈ dag.ancestorHeaders rounds info) :
    ∃ key ancestor, dag.headers.lookup key = some ancestor ∧ ancestor.header = header := by
  induction rounds generalizing hash info with
  | zero => exact ⟨hash, info, found, (mem_singleton.mp member).symm⟩
  | succ _ ih =>
    rcases mem_cons.mp member with rfl | older
    · exact ⟨hash, info, found, rfl⟩
    cases known : dag.headers.lookup info.header.prevBlockhash with
    | none => simp [known] at older
    | some _ =>
      rw [known] at older
      exact ih known older

section
variable (collisionFree : CollisionFree crate) (arithmetic : CoreArithmetic crate expand)
  (accepted : dag.Accepted crate)
include collisionFree arithmetic accepted

theorem Accepted.bits_eq_limit
    (fixed : dag.params.noPowRetargeting = true) (found : dag.headers.lookup hash = some info) :
    info.header.bits = crate.toCompactLossy dag.params.maxAttainableTarget := by
  have valid := accepted.valid
  generalize isHeight : info.height = height
  induction height generalizing hash info with
  | zero =>
    have isGenesis := valid.rooted.eq_genesis_of_height found isHeight
    rw [isGenesis, valid.rooted.root, some.injEq] at found
    rw [valid.params_eq] at fixed ⊢
    rw [← found]
    exact (arithmetic.limit _ fixed).2
  | succ _ ih =>
    obtain ⟨parent, isParent, admissible⟩ := valid.rooted.parent_of_pos found (by omega)
    obtain ⟨past, _, _, pastValid, sameDeployments, inserted⟩ := accepted.accepted hash info found (by omega)
    obtain ⟨-, ⟨pastParent, acceptable⟩, -⟩ := insert_retains pastValid (insertContextual_eq_ok.mp inserted).2
    obtain rfl : parent = pastParent :=
      valid.info_eq collisionFree pastValid sameDeployments isParent acceptable.parent_found
    have pastFixed : past.params.noPowRetargeting = true := valid.params_eq_of pastValid sameDeployments ▸ fixed
    have fits := admissible.fits
    rw [admissible.height_eq] at fits
    have required := expectedNextBits_fixed arithmetic pastValid pastFixed acceptable.parent_found fits
    rw [expectedNextBits_of_accepted inserted, Except.ok.injEq] at required
    rw [required]
    exact ih isParent (by have := admissible.height_eq; omega)

theorem Accepted.expectedNextBits_eq (isParent : dag.headers.lookup candidate.prevBlockhash = some parent)
    (fits : parent.height + 1 < 2 ^ 32) (timeFits : candidate.time < 2 ^ 32) : dag.expectedNextBits crate candidate =
      .ok (coreNextWorkRequired crate expand dag.params (dag.branchOf parent) candidate) := by
  have valid := accepted.valid
  by_cases boundary : (parent.height + 1) % dag.params.difficultyAdjustmentInterval = 0
  · exact expectedNextBits_retarget arithmetic valid isParent fits boundary
  have sum : checkedAdd 32 parent.height 1 = some (parent.height + 1) := checkedAdd_eq_some.mpr ⟨fits, rfl⟩
  obtain ⟨_, isBranch, length⟩ := valid.branchOf_cons isParent
  have isCore : coreNextWorkRequired crate expand dag.params (dag.branchOf parent) candidate =
      if dag.params.allowMinDifficultyBlocks then
        if parent.header.time + dag.params.powTargetSpacing * 2 < candidate.time then
          crate.toCompactLossy dag.params.maxAttainableTarget
        else coreLastRegularBits dag.params (crate.toCompactLossy dag.params.maxAttainableTarget) (dag.branchOf parent)
      else parent.header.bits := by
    rw [isBranch]
    simp [coreNextWorkRequired, length, boundary]
  by_cases fixed : dag.params.noPowRetargeting = true
  · -- The early exit returns the parent's bits, which each of Core's rules gives on such a path.
    have atLimit : ∀ header ∈ dag.branchOf parent,
        header.bits = crate.toCompactLossy dag.params.maxAttainableTarget := by
      intro header member
      obtain ⟨_, _, found, rfl⟩ := mem_ancestorHeaders isParent member
      exact accepted.bits_eq_limit collisionFree arithmetic fixed found
    rw [expectedNextBits_fixed arithmetic valid fixed isParent fits, isCore,
      coreLastRegularBits_limit (by simp [isBranch]) atLimit,
      accepted.bits_eq_limit collisionFree arithmetic fixed isParent, ite_self, ite_self]
  · have late : (saturatingAdd 32 parent.header.time (dag.params.powTargetSpacing * 2) < candidate.time) =
        (parent.header.time + dag.params.powTargetSpacing * 2 < candidate.time) := by
      simp only [saturatingAdd, saturate, eq_iff_iff]
      omega
    simp only [expectedNextBits, isParent, require, ok_bind, sum, isCore, late, valid.lastRegularBits_eq isParent]
    split_ifs <;> rfl

end

theorem Accepted.of_subset {smaller : HeaderDag} (accepted : dag.Accepted crate) (valid : smaller.Valid crate)
    (sameDeployments : smaller.deployments = dag.deployments)
    (subset : ∀ hash info, smaller.headers.lookup hash = some info → dag.headers.lookup hash = some info) :
    smaller.Accepted crate :=
  ⟨valid, fun hash info found above => sameDeployments ▸ accepted.accepted hash info (subset hash info found) above⟩

theorem Accepted.insertContextual (accepted : dag.Accepted crate)
    (inserted : dag.insertContextual crate header adjustedTime = .ok (next, info)) : next.Accepted crate := by
  obtain ⟨rfl, -, retains⟩ := insert_retains accepted.valid (insertContextual_eq_ok.mp inserted).2
  refine ⟨retains.valid, fun hash known found above => ?_⟩
  rw [retains.headers_eq, lookup_insert] at found
  rw [retains.deployments_eq]
  split at found
  · obtain rfl := some.inj found
    exact ⟨dag, next, adjustedTime, accepted.valid, rfl, inserted⟩
  · exact accepted.accepted hash known found above

theorem Accepted.insertEach (accepted : dag.Accepted crate) {headers : List Header}
    {infos : List HeaderInfo} {final : HeaderDag × List HeaderInfo}
    (inserted : foldOutcome (insertNextContextual crate adjustedTime) (dag, infos) headers = .ok final) :
    final.1.Accepted crate := by
  induction headers generalizing dag infos with
  | nil =>
    cases inserted
    exact accepted
  | cons _ _ ih =>
    simp only [foldOutcome_cons, insertNextContextual, bind_eq_ok, pure_eq_ok] at inserted
    obtain ⟨_, ⟨_, insertedFirst, rfl⟩, remaining⟩ := inserted
    exact ih (accepted.insertContextual insertedFirst) remaining

theorem accepted_withDeployments (crate : HeaderCrate) (deployments : DeploymentConfig) :
    (withDeployments crate deployments).Accepted crate := by
  refine ⟨valid_withDeployments crate deployments, fun hash info found above => ?_⟩
  simp only [withDeployments, Table.lookup_singleton] at found
  split at found
  · cases found
    exact absurd above (Nat.lt_irrefl 0)
  · cases found

variable {crate : HeaderCrate}

theorem Accepted.perform (accepted : dag.Accepted crate) {operation : DagOperation} (contextual : operation.Contextual)
    (performed : dag.perform crate operation = .ok next) : next.Accepted crate := by
  obtain ⟨_, performed', valid, sameDeployments⟩ := perform_valid accepted.valid operation
  cases performed.symm.trans performed'
  cases operation with
  | insert _ => exact contextual.elim
  | insertContextual _ adjustedTime =>
    simp only [HeaderDag.perform, afterInsertion] at performed
    split at performed
    · next inserted =>
      cases performed
      exact accepted.insertContextual inserted
    · cases performed
      exact accepted
    · cases performed
  | stageBatch headers adjustedTime commits =>
    obtain ⟨_, result, -, rfl | ⟨-, _, inserted⟩⟩ := stageBatch_valid accepted.valid headers adjustedTime commits
    · cases result.symm.trans performed
      exact accepted
    · cases result.symm.trans performed
      exact accepted.insertEach inserted
  | evictLeaves hashes pinnedTips maxEntries commits =>
    obtain ⟨_, result, -, kept⟩ := evictLeaves_valid accepted.valid hashes pinnedTips maxEntries commits
    cases result.symm.trans performed
    exact accepted.of_subset valid sameDeployments kept

theorem run_accepted {deployments : DeploymentConfig} {operations : List DagOperation}
    (contextual : ∀ operation ∈ operations, operation.Contextual)
    (ran : (withDeployments crate deployments).run crate operations = .ok dag) : dag.Accepted crate :=
  foldOutcome_invariant (fun _ _ _ member accepted performed => accepted.perform (contextual _ member) performed)
    (accepted_withDeployments crate deployments) ran

end HeaderDag

namespace TallChain

def header (height : Nat) : Header :=
  { version := 4, prevBlockhash := ⟨2 * height⟩, merkleRoot := ⟨0⟩, time := height, bits := Fixture.bits,
    nonce := height }

def blockHash (candidate : Header) : BlockHash :=
  if candidate = header candidate.nonce then ⟨2 * candidate.nonce + 2⟩ else ⟨2 * Fixture.encode candidate + 3⟩

/-- Outside regtest a period has two headers. -/
def params (network : Network) : Params :=
  { Fixture.params network with
    powTargetTimespan := 2 * (10 * 60)
    maxAttainableTarget := 2 ^ 64
    noPowRetargeting := network = .regtest
    allowMinDifficultyBlocks := network = .regtest ∨ network = .testnet ∨ network = .testnet4 }

def compactCrate : HeaderCrate :=
  { Fixture.crate with
    blockHash
    target := fun _ => 2 ^ 64
    toCompactLossy := fun target => if target = 2 ^ 64 then Fixture.bits else target
    genesisHeader := fun _ => header 0
    paramsNew := params }

def crate : HeaderCrate :=
  { compactCrate with
    fromNextWorkRequired := fun bits elapsed params =>
      if params.noPowRetargeting then bits else coreRetarget compactCrate id params bits elapsed }

def infoAt (height : Nat) : HeaderInfo :=
  { header := header height, hash := ⟨2 * height + 2⟩, height, chainwork := height + 1 }

def origin : HeaderDag := .withDeployments crate (.forNetwork .regtest)

theorem blockHash_header (height : Nat) : blockHash (header height) = ⟨2 * height + 2⟩ := by
  have canonical : header height = header (header height).nonce := rfl
  rw [blockHash, if_pos canonical]
  rfl

theorem collisionFree : CollisionFree crate := Fixture.collisionFree_of rfl fun _ => rfl

theorem coreArithmetic : CoreArithmetic crate id where
  retargets _ _ _ := rfl
  interval network := by cases network <;> decide
  network network := by cases network <;> rfl
  limit network := by cases network <;> decide

structure Reaches (height : Nat) (dag : HeaderDag) : Prop where
  ran : ∃ operations : List DagOperation, (∀ operation ∈ operations, operation.Contextual) ∧
    origin.run crate operations = .ok dag
  top : dag.headers.lookup (infoAt height).hash = some (infoAt height)
  below : ∀ hash info, dag.headers.lookup hash = some info → ∃ lower ≤ height, info.header = header lower

theorem reaches_zero : Reaches 0 origin := by
  have valid := valid_withDeployments crate (.forNetwork .regtest)
  refine ⟨⟨[], nofun, rfl⟩, valid.rooted.root, fun hash info found => ⟨0, Nat.le_refl _, ?_⟩⟩
  simp only [origin, withDeployments, Table.lookup_singleton] at found
  split at found
  · cases found
    rfl
  · cases found

theorem Reaches.step {height : Nat} {dag : HeaderDag} (small : height + 1 < 2 ^ 32) (reaches : Reaches height dag) :
    ∃ next, Reaches (height + 1) next := by
  obtain ⟨operations, contextual, ran⟩ := reaches.ran
  obtain ⟨_, ran', valid, sameDeployments⟩ :=
    run_valid (valid_withDeployments crate (.forNetwork .regtest)) operations
  cases ran.symm.trans ran'
  have isRegtest : dag.params = coreParams crate .regtest := by
    rw [valid.params_eq, sameDeployments]
    rfl
  have isParent : dag.headers.lookup (header (height + 1)).prevBlockhash = some (infoAt height) := reaches.top
  have fresh : dag.headers.lookup (infoAt (height + 1)).hash = none := by
    cases found : dag.headers.lookup (infoAt (height + 1)).hash with
    | none => rfl
    | some info =>
      obtain ⟨lower, within, same⟩ := reaches.below _ _ found
      have hashed := (valid.rooted.keyed _ _ found).2
      rw [same, show crate.blockHash (header lower) = ⟨2 * lower + 2⟩ from blockHash_header lower] at hashed
      simp only [infoAt, BlockHash.mk.injEq] at hashed
      omega
  have acceptable : HeaderDag.Acceptable crate dag (infoAt height) (infoAt (height + 1)) := by
    refine ⟨fresh, blockHash_header _, reaches.top, ⟨rfl, small, ?_, ?_, ?_, ?_, ?_⟩⟩
    · intro expected pinned
      rw [isRegtest] at pinned
      cases pinned
    · show 2 ^ 64 ≠ 0
      decide
    · rw [isRegtest]
      exact Nat.le_refl _
    · show 2 * (height + 1) + 2 ≤ 2 ^ 64
      omega
    · show height + 1 + 1 = addWork (height + 1) 1
      rw [addWork_eq (by omega)]
  obtain ⟨next, inserted, retains⟩ := insert_of_acceptable valid acceptable
  obtain ⟨median, medianFound, _⟩ := medianTimePast_le (fun hash info found => show info.header.time ≤ height by
      obtain ⟨lower, within, same⟩ := reaches.below _ _ found
      rw [same]
      exact within) reaches.top
  have checked : dag.validateContext crate (header (height + 1)) (2 ^ 32 - 1) = .ok () := by
    simp only [validateContext, bind_eq_ok, ensure_eq_ok, require_eq_ok, not_mem_iff]
    refine ⟨(), acceptable.hashed ▸ fresh, infoAt height, reaches.top, height + 1,
      checkedAdd_eq_some.mpr ⟨small, rfl⟩, (), ?_, (), ?_, median, medianFound, (), ?_, (), ?_, (), ?_, Fixture.bits,
      ?_, rfl⟩
    · rw [validateForkHeight_eq_ok, isRegtest]
      intro checkpointHeight listed
      cases listed
    · rw [sameDeployments]
      show minimumBlockVersionForHeights (activationHeights .regtest) (height + 1) ≤ 4
      unfold minimumBlockVersionForHeights
      split_ifs <;> decide
    · show median < height + 1
      omega
    · rw [isRegtest]
      rfl
    · show height + 1 ≤ saturatingAdd 32 (2 ^ 32 - 1) maxFutureBlockTimeSecs
      simp only [saturatingAdd, saturate]
      omega
    · have fixed : dag.params.noPowRetargeting = true := by
        rw [isRegtest]
        rfl
      exact expectedNextBits_fixed coreArithmetic valid fixed isParent small
  have accepted := insertContextual_eq_ok.mpr ⟨checked, inserted⟩
  refine ⟨next, ⟨operations ++ [.insertContextual (header (height + 1)) (2 ^ 32 - 1)], ?_, ?_⟩, ?_, ?_⟩
  · intro operation member
    rcases mem_append.mp member with earlier | last
    · exact contextual operation earlier
    · rw [mem_singleton.mp last]
      trivial
  · rw [run] at ran ⊢
    rw [foldOutcome_append, ran, ok_bind, foldOutcome_singleton]
    simp only [perform, afterInsertion, accepted]
  · rw [retains.headers_eq, lookup_insert, if_pos rfl]
  · intro hash info found
    rw [retains.headers_eq, lookup_insert] at found
    split at found
    · cases found
      exact ⟨height + 1, Nat.le_refl _, rfl⟩
    · obtain ⟨lower, within, same⟩ := reaches.below hash info found
      exact ⟨lower, Nat.le_succ_of_le within, same⟩

theorem exists_reaches (height : Nat) (small : height < 2 ^ 32) : ∃ dag, Reaches height dag := by
  induction height with
  | zero => exact ⟨origin, reaches_zero⟩
  | succ _ ih =>
    obtain ⟨_, reaches⟩ := ih (by omega)
    exact reaches.step small

end TallChain

open TallChain

/-- In every DAG reached by contextual mutations `expected_next_bits` is Core's required work for the branch,
except that it refuses a candidate above the last 32-bit height. -/
theorem expectedNextBits_matches_core {crate : HeaderCrate} {expand : Nat → Nat} (collisionFree : CollisionFree crate)
    (arithmetic : CoreArithmetic crate expand) {deployments : DeploymentConfig} {operations : List DagOperation}
    {dag : HeaderDag} (contextual : ∀ operation ∈ operations, operation.Contextual)
    (ran : (withDeployments crate deployments).run crate operations = .ok dag) {candidate : Header}
    {parent : HeaderInfo} (isParent : dag.headers.lookup candidate.prevBlockhash = some parent)
    (timeFits : candidate.time < 2 ^ 32) :
    (parent.height < 2 ^ 32 - 1 → dag.expectedNextBits crate candidate =
      .ok (coreNextWorkRequired crate expand dag.params (dag.branchOf parent) candidate)) ∧
    (parent.height = 2 ^ 32 - 1 → dag.expectedNextBits crate candidate = .error (.refused .heightOverflow)) ∧
    ∀ (others : List DagOperation) (other : HeaderDag),
      (withDeployments crate deployments).run crate others = .ok other → candidate.prevBlockhash ∈ other.headers →
      other.expectedNextBits crate candidate = dag.expectedNextBits crate candidate := by
  have accepted := run_accepted contextual ran
  refine ⟨fun below => ?_, fun top => ?_, fun others other ranOther retained => ?_⟩
  · exact accepted.expectedNextBits_eq collisionFree arithmetic isParent (by omega) timeFits
  · have exceeds : checkedAdd 32 parent.height 1 = none := if_neg (by omega)
    simp only [expectedNextBits, isParent, require, ok_bind, exceeds]
    rfl
  have start := valid_withDeployments crate deployments
  obtain ⟨_, ran', -, deployments_eq⟩ := run_valid start operations
  cases ran.symm.trans ran'
  obtain ⟨_, ranOther', otherValid, otherDeployments⟩ := run_valid start others
  cases ranOther.symm.trans ranOther'
  have sameDeployments : other.deployments = dag.deployments := otherDeployments.trans deployments_eq.symm
  obtain ⟨_, isParent'⟩ := mem_iff.mp retained
  obtain rfl := accepted.valid.info_eq collisionFree otherValid sameDeployments isParent isParent'
  exact expectedNextBits_local collisionFree accepted.valid otherValid sameDeployments isParent isParent'

/-- On signet the third header starts a period, and a period that was too short divides its target by four. -/
theorem expectedNextBits_matches_core_signet : ∃ dag : HeaderDag,
    (withDeployments crate (.forNetwork .signet)).run crate [.insertContextual (header 1) 10] = .ok dag ∧
    crate.blockHash (header 1) ∈ dag.headers ∧ dag.expectedNextBits crate (header 2) = .ok (Fixture.bits / 4) := by
  have evaluated : ((withDeployments crate (.forNetwork .signet)).run crate
      [.insertContextual (header 1) 10]).map (fun dag =>
        (dag.params, dag.headers.lookup ⟨4⟩, dag.branchOf (infoAt 1))) =
      .ok (params .signet, some (infoAt 1), [header 1, header 0]) := by
    decide
  cases ran : (withDeployments crate (.forNetwork .signet)).run crate [.insertContextual (header 1) 10] with
  | error _ =>
    rw [ran] at evaluated
    cases evaluated
  | ok dag =>
    simp only [ran, Except.map, Except.ok.injEq, Prod.mk.injEq] at evaluated
    obtain ⟨params, found, branch⟩ := evaluated
    refine ⟨dag, rfl, mem_iff.mpr ⟨_, found⟩, ?_⟩
    have isParent : dag.headers.lookup (header 2).prevBlockhash = some (infoAt 1) := found
    have matched := (expectedNextBits_matches_core collisionFree coreArithmetic
      (by simp [DagOperation.Contextual]) ran isParent (by decide)).1 (by decide)
    rw [matched, params, branch]
    decide

/-- Above the last 32-bit height Core still requires a difficulty, and the code refuses the candidate. -/
theorem expectedNextBits_overflows : ∃ (crate : HeaderCrate) (expand : Nat → Nat) (deployments : DeploymentConfig)
    (operations : List DagOperation) (dag : HeaderDag) (candidate : Header) (parent : HeaderInfo),
    CollisionFree crate ∧ CoreArithmetic crate expand ∧ (∀ operation ∈ operations, operation.Contextual) ∧
      (withDeployments crate deployments).run crate operations = .ok dag ∧
      dag.headers.lookup candidate.prevBlockhash = some parent ∧ candidate.time < 2 ^ 32 ∧
      dag.expectedNextBits crate candidate = .error (.refused .heightOverflow) := by
  obtain ⟨dag, reaches⟩ := exists_reaches (2 ^ 32 - 1) (by decide)
  obtain ⟨operations, contextual, ran⟩ := reaches.ran
  refine ⟨crate, id, .forNetwork .regtest, operations, dag,
    { header 0 with prevBlockhash := (infoAt (2 ^ 32 - 1)).hash }, _, collisionFree,
    coreArithmetic, contextual, ran, reaches.top, by decide, ?_⟩
  simp only [expectedNextBits, reaches.top]
  rfl

end Rbtc.Headers
