import Rbtc.Headers.DagRuns

/-! Contextual validation is local: its verdict depends on the header's ancestors only. Growth of the
fixture's branches: every prefix of either branch is accepted, and is the chain a DAG then holds. -/

namespace Rbtc.Headers

open Foundation Bitcoin List Option

/-- Block hashes are collision free, and no header hashes to the parent hash of a genesis. -/
structure CollisionFree (crate : HeaderCrate) : Prop where
  injective : Function.Injective crate.blockHash
  genesis_parent : ∀ network header, crate.blockHash header ≠ (crate.genesisHeader network).prevBlockhash

variable {hash : BlockHash} {info : HeaderInfo}

namespace HeaderDag

variable {crate : HeaderCrate} {dag dag' : HeaderDag}

theorem Valid.params_eq_of (valid : dag.Valid crate) (valid' : dag'.Valid crate)
    (sameDeployments : dag'.deployments = dag.deployments) : dag'.params = dag.params := by
  rw [valid'.params_eq, sameDeployments, ← valid.params_eq]

theorem Valid.genesis_parent (collisionFree : CollisionFree crate) (valid : dag.Valid crate)
    (found : dag.headers.lookup hash = some info)
    (lowest : info.height = 0) : dag.headers.lookup info.header.prevBlockhash = none := by
  have isGenesis := valid.rooted.eq_genesis_of_height found lowest
  rw [isGenesis, valid.rooted.root, some.injEq] at found
  cases known : dag.headers.lookup info.header.prevBlockhash with
  | none => rfl
  | some _ =>
    have hashed := (valid.rooted.keyed _ _ known).2
    rw [← found] at hashed
    exact absurd hashed (collisionFree.genesis_parent _ _)

section
variable (collisionFree : CollisionFree crate) (valid : dag.Valid crate) (valid' : dag'.Valid crate)
  (sameDeployments : dag'.deployments = dag.deployments) (found : dag.headers.lookup hash = some info)
include collisionFree valid valid' sameDeployments found

theorem Valid.info_eq {info' : HeaderInfo} (found' : dag'.headers.lookup hash = some info') : info = info' := by
  have rooted' := valid'.rooted
  rw [sameDeployments] at rooted'
  refine valid.rooted.info_eq rooted' (fun hash info info' known known' => ?_) found found'
  apply collisionFree.injective
  rw [(valid.rooted.keyed _ _ known).2, (rooted'.keyed _ _ known').2]

theorem Valid.parent_eq (found' : dag'.headers.lookup hash = some info) :
    dag'.headers.lookup info.header.prevBlockhash = dag.headers.lookup info.header.prevBlockhash := by
  by_cases lowest : info.height = 0
  · rw [valid.genesis_parent collisionFree found lowest, valid'.genesis_parent collisionFree found' lowest]
  · obtain ⟨_, known, -⟩ := valid.rooted.parent_of_pos found (by omega)
    obtain ⟨_, known', -⟩ := valid'.rooted.parent_of_pos found' (by omega)
    rw [known, known', valid.info_eq collisionFree valid' sameDeployments known known']

end

theorem Valid.ancestorWalk (valid : dag.Valid crate) (rounds : Nat)
    (found : dag.headers.lookup hash = some info) (within : rounds ≤ info.height) :
    ∃ ancestor, dag.ancestorWalk rounds info = some ancestor ∧ ancestor.height + rounds = info.height := by
  induction rounds generalizing hash info with
  | zero => exact ⟨info, rfl, rfl⟩
  | succ _ ih =>
    obtain ⟨_, known, admissible⟩ := valid.rooted.parent_of_pos found (by omega)
    have height := admissible.height_eq
    obtain ⟨ancestor, walked, _⟩ := ih known (by omega)
    exact ⟨ancestor, by simp [HeaderDag.ancestorWalk, known, walked], by omega⟩

variable {height bound : Nat}

theorem Valid.ancestorAtHeight (valid : dag.Valid crate) (found : dag.headers.lookup hash = some info)
    (below : height ≤ info.height) : ∃ ancestor, dag.ancestorAtHeight info height = some ancestor := by
  obtain ⟨ancestor, walked, _⟩ := valid.ancestorWalk (info.height - height) found (Nat.sub_le _ _)
  refine ⟨ancestor, ?_⟩
  rw [HeaderDag.ancestorAtHeight, walked, bind_some, if_pos (by omega)]

section
variable (bounded : ∀ hash info, dag.headers.lookup hash = some info → info.header.time ≤ bound)
include bounded

theorem ancestorTimes_le {count : Nat}
    (found : dag.headers.lookup hash = some info) : ∀ time ∈ dag.ancestorTimes count info, time ≤ bound := by
  induction count generalizing hash info with
  | zero =>
    intro time member
    rw [mem_singleton.mp member]
    exact bounded hash info found
  | succ _ ih =>
    intro time member
    rcases mem_cons.mp member with rfl | later
    · exact bounded hash info found
    cases known : dag.headers.lookup info.header.prevBlockhash with
    | none => simp [known] at later
    | some _ =>
      simp only [known] at later
      exact ih known time later

theorem medianTimePast_le (found : dag.headers.lookup hash = some info) :
    ∃ median, dag.medianTimePast hash = some median ∧ median ≤ bound := by
  refine ⟨_, by rw [medianTimePast, found, map_some], ?_⟩
  generalize sorted : (dag.ancestorTimes 10 info).insertionSort (· ≤ ·) = times
  have inside : times.length / 2 < times.length := by
    have positive : 0 < times.length := by
      rw [← sorted, length_insertionSort]
      exact Nat.succ_pos _
    omega
  simp only [getD_eq_getElem?_getD, getElem?_eq_getElem inside]
  apply ancestorTimes_le bounded found
  rw [← mem_insertionSort (· ≤ ·), sorted]
  exact getElem_mem inside

end

theorem le_of_find?_descending {values : List Nat} {holds : Nat → Bool} {first : Nat}
    (descending : values.Pairwise (· > ·)) (found : values.find? holds = some first) :
    ∀ value ∈ values, holds value = true → value ≤ first := by
  induction values with
  | nil => cases found
  | cons head _ ih =>
    intro value member holdsValue
    rw [pairwise_cons] at descending
    by_cases holdsHead : holds head = true
    · rw [List.find?_cons_of_pos holdsHead, some.injEq] at found
      subst found
      rcases mem_cons.mp member with rfl | later
      · exact Nat.le_refl _
      · exact Nat.le_of_lt (descending.1 value later)
    · rw [List.find?_cons_of_neg holdsHead] at found
      rcases mem_cons.mp member with rfl | later
      · exact absurd holdsValue holdsHead
      · exact ih descending.2 found value later holdsValue

theorem checkpointHeights_ascending (network : Network) : (checkpointHeights network).Pairwise (· < ·) := by
  cases network <;> decide

theorem validateForkHeight_eq_ok {done : Unit} : dag.validateForkHeight height = .ok done ↔
      ∀ checkpointHeight ∈ checkpointHeights dag.params.network, ∀ hash,
        checkpointHash dag.params.network checkpointHeight = some hash →
        hash ∈ dag.headers → checkpointHeight ≤ height := by
  unfold validateForkHeight
  cases known : dag.lastKnownCheckpointHeight with
  | none =>
    refine ⟨fun _ checkpointHeight listed hash pinned retained => ?_, fun _ => rfl⟩
    simp only [lastKnownCheckpointHeight, List.find?_eq_none, mem_reverse] at known
    have unknown := known checkpointHeight listed
    simp [pinned, retained] at unknown
  | some last =>
    simp only [ensure_eq_ok]
    constructor
    · intro admitted checkpointHeight listed hash pinned retained
      have descending := pairwise_reverse.mpr (checkpointHeights_ascending dag.params.network)
      refine Nat.le_trans (le_of_find?_descending descending known checkpointHeight
        (mem_reverse.mpr listed) ?_) admitted
      simp [pinned, retained]
    intro below
    have listed := mem_reverse.mp (mem_of_find?_eq_some known)
    have holds := List.find?_some known
    split at holds
    · next hash pinned => exact below last listed hash pinned (by simpa using holds)
    · cases holds

theorem validateForkHeight_of_accepted {header : Header} {adjustedTime : Nat}
    {result : HeaderDag × HeaderInfo} {parent : HeaderInfo}
    (accepted : dag.insertContextual crate header adjustedTime = .ok result)
    (parentFound : dag.headers.lookup header.prevBlockhash = some parent) :
    dag.validateForkHeight (parent.height + 1) = .ok () := by
  obtain ⟨checked, -⟩ := insertContextual_eq_ok.mp accepted
  simp only [validateContext, bind_eq_ok, require_eq_ok] at checked
  obtain ⟨-, -, _, known, _, sum, _, admitted, -⟩ := checked
  obtain rfl := mem_unique parentFound known
  obtain ⟨-, rfl⟩ := checkedAdd_eq_some.mp sum
  exact admitted

variable (collisionFree : CollisionFree crate) (valid : dag.Valid crate)
  (valid' : dag'.Valid crate) (sameDeployments : dag'.deployments = dag.deployments)
include collisionFree valid valid' sameDeployments

theorem ancestorTimes_local (count : Nat) (found : dag.headers.lookup hash = some info)
    (found' : dag'.headers.lookup hash = some info) : dag'.ancestorTimes count info = dag.ancestorTimes count info := by
  induction count generalizing hash info with
  | zero => rfl
  | succ _ ih =>
    have sameParent := valid.parent_eq collisionFree valid' sameDeployments found found'
    unfold ancestorTimes
    cases known : dag.headers.lookup info.header.prevBlockhash with
    | none => simp [sameParent, known]
    | some _ =>
      rw [known] at sameParent
      simp [sameParent, ih known sameParent]

theorem medianTimePast_local (found : dag.headers.lookup hash = some info)
    (found' : dag'.headers.lookup hash = some info) : dag'.medianTimePast hash = dag.medianTimePast hash := by
  simp [medianTimePast, found, found', ancestorTimes_local collisionFree valid valid' sameDeployments 10 found found']

theorem ancestorWalk_local (rounds : Nat) (found : dag.headers.lookup hash = some info)
    (found' : dag'.headers.lookup hash = some info) : dag'.ancestorWalk rounds info = dag.ancestorWalk rounds info := by
  induction rounds generalizing hash info with
  | zero => rfl
  | succ _ ih =>
    have sameParent := valid.parent_eq collisionFree valid' sameDeployments found found'
    unfold ancestorWalk
    cases known : dag.headers.lookup info.header.prevBlockhash with
    | none => simp [sameParent, known]
    | some _ =>
      rw [known] at sameParent
      simp [sameParent, ih known sameParent]

theorem lastRegularBits_local (interval powLimit rounds : Nat) (found : dag.headers.lookup hash = some info)
    (found' : dag'.headers.lookup hash = some info) : dag'.lastRegularBits interval powLimit rounds info =
      dag.lastRegularBits interval powLimit rounds info := by
  induction rounds generalizing hash info with
  | zero => rfl
  | succ _ ih =>
    have sameParent := valid.parent_eq collisionFree valid' sameDeployments found found'
    unfold lastRegularBits
    cases known : dag.headers.lookup info.header.prevBlockhash with
    | none => simp [sameParent, known, require]
    | some _ =>
      rw [known] at sameParent
      simp [sameParent, require, ih known sameParent]

theorem expectedNextBits_local {candidate : Header} {parent : HeaderInfo}
    (found : dag.headers.lookup candidate.prevBlockhash = some parent)
    (found' : dag'.headers.lookup candidate.prevBlockhash = some parent) :
    dag'.expectedNextBits crate candidate = dag.expectedNextBits crate candidate := by
  have sameParams := valid.params_eq_of valid' sameDeployments
  have sameAncestor : ∀ height, dag'.ancestorAtHeight parent height =
      dag.ancestorAtHeight parent height := fun height => by
    simp [ancestorAtHeight, ancestorWalk_local collisionFree valid valid' sameDeployments _ found found']
  have sameBits : ∀ interval powLimit, dag'.lastRegularBits interval powLimit parent.height parent =
        dag.lastRegularBits interval powLimit parent.height parent := fun interval powLimit =>
    lastRegularBits_local collisionFree valid valid' sameDeployments interval powLimit _ found found'
  simp [expectedNextBits, found, found', require, sameParams, sameAncestor, sameBits]

/-- A header accepted in one DAG is accepted in any other that retains its parent and knows no
checkpoint above it. -/
theorem insertContextual_local {header : Header} {adjustedTime : Nat} {parent : HeaderInfo}
    {result : HeaderDag × HeaderInfo} (accepted : dag.insertContextual crate header adjustedTime = .ok result)
    (parentFound : dag'.headers.lookup header.prevBlockhash = some parent)
    (fresh : dag'.headers.lookup (crate.blockHash header) = none)
    (unhindered : dag'.validateForkHeight (parent.height + 1) = .ok ()) :
    ∃ next, dag'.insertContextual crate header adjustedTime = .ok (next, result.2) ∧
      Retains crate dag' result.2 next := by
  obtain ⟨checked, inserted⟩ := insertContextual_eq_ok.mp accepted
  obtain ⟨rfl, ⟨parent', acceptable⟩, -⟩ := insert_retains valid inserted
  obtain rfl := valid.info_eq collisionFree valid' sameDeployments acceptable.parent_found parentFound
  have sameParams := valid.params_eq_of valid' sameDeployments
  have parentHash := (valid.rooted.keyed _ _ acceptable.parent_found).1
  have acceptable' : Acceptable crate dag' parent' result.2 :=
    ⟨acceptable.hashed ▸ fresh, acceptable.hashed, parentFound, sameParams ▸ acceptable.admissible⟩
  obtain ⟨next, inserted', retains⟩ := insert_of_acceptable valid' acceptable'
  refine ⟨next, insertContextual_eq_ok.mpr ⟨?_, inserted'⟩, retains⟩
  have parentFound' := parentFound
  have found := acceptable.parent_found
  rw [← parentHash] at parentFound' found
  simp only [validateContext, bind_eq_ok, ensure_eq_ok, require_eq_ok, Table.not_mem_iff] at checked ⊢
  obtain ⟨-, -, _, known, _, sum, -, -, -, version, median, medianFound, -, late, _,
    boundary, -, notEarly, expected, bits, done⟩ := checked
  obtain rfl := mem_unique acceptable.parent_found known
  obtain ⟨-, rfl⟩ := checkedAdd_eq_some.mp sum
  refine ⟨(), fresh, parent', parentFound, _, sum, (), unhindered, (), ?_, median, ?_, (), late, (),
    ?_, (), notEarly, expected, ?_, done⟩
  · rw [sameDeployments]
    exact version
  · rw [medianTimePast_local collisionFree valid valid' sameDeployments found parentFound']
    exact medianFound
  · rw [sameParams]
    exact boundary
  · rw [expectedNextBits_local collisionFree valid valid' sameDeployments known parentFound]
    exact bits

end HeaderDag

namespace Fixture

open HeaderDag

theorem encodeInt_injective : Function.Injective encodeInt := by
  intro left right same
  cases left <;> cases right <;> simp only [encodeInt] at same <;> congr 1 <;> omega

theorem encode_injective : Function.Injective encode := by
  intro left right same
  simp only [encode, Nat.pair_eq_pair] at same
  obtain ⟨version, previous, merkle, time, bits, nonce⟩ := same
  exact Header.ext (encodeInt_injective version) (BlockHash.ext previous) (TxMerkleNode.ext merkle)
    time bits nonce

theorem blockHash_header (nonce : Nat) : blockHash (header nonce) = ⟨2 * nonce + 2⟩ := by
  have canonical : header nonce = header (header nonce).nonce := rfl
  rw [blockHash, if_pos canonical]
  rfl

/-- A hash that is even on a chain of headers and odd elsewhere has no collisions. -/
theorem collisionFree_of {crate : HeaderCrate} {header : Nat → Header} (isHash : crate.blockHash = fun candidate =>
      if candidate = header candidate.nonce then ⟨2 * candidate.nonce + 2⟩ else ⟨2 * encode candidate + 3⟩)
    (parentless : ∀ network, (crate.genesisHeader network).prevBlockhash = ⟨0⟩) : CollisionFree crate := by
  refine ⟨fun left right same => ?_, fun network candidate same => ?_⟩
  · simp only [isHash] at same
    split at same <;> split at same <;> simp only [BlockHash.mk.injEq] at same
    · next leftCanonical rightCanonical =>
      rw [leftCanonical, rightCanonical, show left.nonce = right.nonce by omega]
    · omega
    · omega
    · exact encode_injective (by omega)
  · simp only [isHash, parentless] at same
    split at same <;> simp at same

theorem collisionFree : CollisionFree crate := collisionFree_of rfl fun _ => rfl

theorem workPositive : ∀ target, target ≠ 0 → 0 < crate.toWork target :=
  fun _ _ => Nat.one_pos

variable {side height : Nat}

theorem prevBlockhash_header (isSide : side < 2) : (header (2 * (height + 1) + side)).prevBlockhash =
      blockHash (header (if height = 0 then 0 else 2 * height + side)) := by
  rw [blockHash_header]
  simp only [header]
  split_ifs <;> first | rfl | omega | (congr 1; omega)

def nonceAt (side height : Nat) : Nat := if height = 0 then 0 else 2 * height + side

def infoAt (side height : Nat) : HeaderInfo :=
  { header := header (nonceAt side height)
    hash := blockHash (header (nonceAt side height))
    height
    chainwork := height + 1 }

theorem nonceAt_injective {left right : Nat} (same : nonceAt side left = nonceAt side right) : left = right := by
  unfold nonceAt at same
  split at same <;> split at same <;> omega

theorem infoAt_zero (side : Nat) : infoAt side 0 = genesisInfo crate .regtest := by
  simp only [infoAt, nonceAt, if_true]
  rfl

/-- A DAG that retains the first headers of one branch and has the last one as its tip. -/
structure Grown (side height : Nat) (dag : HeaderDag) : Prop where
  gathers : Gathers crate origin (branch side height) dag
  tip : dag.activeTip = (infoAt side height).hash
  tip_found : dag.headers.lookup (infoAt side height).hash = some (infoAt side height)

theorem branch_succ (side height : Nat) :
    branch side (height + 1) = branch side height ++ [header (nonceAt side (height + 1))] := by
  simp [branch, List.range_succ, nonceAt]

theorem grown_zero (side : Nat) : Grown side 0 origin := by
  have valid := valid_withDeployments crate deployments
  refine ⟨Gathers.nil valid, ?_, ?_⟩ <;> rw [infoAt_zero]
  · rfl
  · exact valid.rooted.root

theorem Grown.retained {dag : HeaderDag} (grown : Grown side height dag)
    {hash : BlockHash} {info : HeaderInfo} (found : dag.headers.lookup hash = some info) :
    ∃ below ≤ height, info.header = header (nonceAt side below) := by
  rcases grown.gathers.source hash info found with initial | member
  · refine ⟨0, Nat.zero_le _, ?_⟩
    simp only [origin, withDeployments, Table.lookup_singleton] at initial
    split at initial
    · cases initial
      rfl
    · cases initial
  · obtain ⟨index, inside, same⟩ := List.mem_map.mp member
    rw [List.mem_range] at inside
    exact ⟨index + 1, inside, by rw [← same]; rfl⟩

theorem Grown.expectedNextBits {dag : HeaderDag}
    (grown : Grown side height dag) (small : height + 1 < 2 ^ 32) {candidate : Header}
    (child : candidate.prevBlockhash = (infoAt side height).hash) :
    dag.expectedNextBits crate candidate = .ok bits := by
  have valid := grown.gathers.valid
  have isRegtest : dag.params = coreParams crate .regtest := by
    rw [valid.params_eq, grown.gathers.deployments_eq]
    rfl
  have sum : checkedAdd 32 (infoAt side height).height 1 = some (height + 1) :=
    checkedAdd_eq_some.mpr ⟨small, rfl⟩
  simp only [HeaderDag.expectedNextBits, child, grown.tip_found, require, ok_bind, sum]
  split
  · next boundary =>
    have below : height + 1 - dag.params.difficultyAdjustmentInterval ≤ (infoAt side height).height := by
      rw [isRegtest]
      show height + 1 - 144 ≤ height
      omega
    obtain ⟨_, found⟩ := valid.ancestorAtHeight grown.tip_found below
    simp only [found]
    rw [isRegtest]
    rfl
  · rw [isRegtest]
    rfl

theorem Grown.step {side height adjustedTime : Nat} {dag : HeaderDag} (isSide : side < 2)
    (small : height < 2 ^ 16) (soon : height ≤ adjustedTime) (grown : Grown side height dag) :
    ∃ next, dag.insertContextual crate (header (nonceAt side (height + 1))) adjustedTime =
      .ok (next, infoAt side (height + 1)) ∧ Grown side (height + 1) next := by
  have valid := grown.gathers.valid
  have isRegtest : dag.params = coreParams crate .regtest := by
    rw [valid.params_eq, grown.gathers.deployments_eq]
    rfl
  have child : (header (nonceAt side (height + 1))).prevBlockhash = (infoAt side height).hash := by
    rw [show nonceAt side (height + 1) = 2 * (height + 1) + side from rfl, prevBlockhash_header isSide]
    rfl
  have fresh : dag.headers.lookup (infoAt side (height + 1)).hash = none := by
    cases found : dag.headers.lookup (infoAt side (height + 1)).hash with
    | none => rfl
    | some info =>
      obtain ⟨below, _, same⟩ := grown.retained found
      have hashed := (valid.rooted.keyed _ _ found).2
      rw [same] at hashed
      have sameNonce : nonceAt side below = nonceAt side (height + 1) :=
        congrArg Header.nonce (collisionFree.injective hashed)
      have sameHeight := nonceAt_injective sameNonce
      omega
  have acceptable : HeaderDag.Acceptable crate dag (infoAt side height) (infoAt side (height + 1)) := by
    refine ⟨fresh, rfl, child ▸ grown.tip_found, ⟨rfl, ?_, ?_, ?_, ?_, ?_, ?_⟩⟩
    · show height + 1 < 2 ^ 32
      omega
    · intro expected pinned
      rw [isRegtest] at pinned
      cases pinned
    · show 2 ^ 32 ≠ 0
      decide
    · rw [isRegtest]
      exact Nat.le_refl _
    · show (blockHash (header (nonceAt side (height + 1)))).value ≤ 2 ^ 32
      rw [blockHash_header]
      show 2 * (2 * (height + 1) + side) + 2 ≤ 2 ^ 32
      omega
    · show height + 1 + 1 = addWork (height + 1) 1
      rw [addWork_eq]
      omega
  obtain ⟨next, inserted, retains⟩ := insert_of_acceptable valid acceptable
  refine ⟨next, insertContextual_eq_ok.mpr ⟨?_, inserted⟩, ?_, ?_, ?_⟩
  · obtain ⟨median, medianFound, _⟩ := medianTimePast_le
      (fun hash info found => show info.header.time ≤ height + 1 by
        obtain ⟨_, _, same⟩ := grown.retained found
        rw [same]
        simp only [header, nonceAt]
        split_ifs <;> omega) grown.tip_found
    simp only [validateContext, bind_eq_ok, ensure_eq_ok, require_eq_ok, Table.not_mem_iff]
    have time : (header (nonceAt side (height + 1))).time = height + 2 := by
      show (2 * (height + 1) + side) / 2 + 1 = height + 2
      omega
    refine ⟨(), fresh, infoAt side height, child ▸ grown.tip_found, height + 1,
      checkedAdd_eq_some.mpr ⟨by show height + 1 < 2 ^ 32; omega, rfl⟩, (), ?_, (), ?_, median,
      medianFound, (), by omega, (), ?_, (), ?_, bits, grown.expectedNextBits (by omega) child, rfl⟩
    · rw [validateForkHeight_eq_ok, isRegtest]
      intro checkpointHeight listed
      cases listed
    · rw [grown.gathers.deployments_eq]
      show minimumBlockVersionForHeights (activationHeights .regtest) (height + 1) ≤ 4
      unfold minimumBlockVersionForHeights
      split_ifs <;> decide
    · rw [isRegtest]
      rfl
    · simp only [saturatingAdd, saturate, maxFutureBlockTimeSecs]
      omega
  · rw [branch_succ]
    exact grown.gathers.snoc inserted
  · have tipFound : dag.headers.lookup dag.activeTip = some (infoAt side height) := by
      rw [grown.tip]
      exact grown.tip_found
    exact (retains.heavier _ tipFound (Nat.lt_succ_self _)).1
  · rw [retains.headers_eq, Table.lookup_insert, if_pos rfl]

def arrivals (side count adjustedTime : Nat) : List Arrival :=
  (branch side count).map fun header => .contextual header adjustedTime

theorem grow (side adjustedTime : Nat) (isSide : side < 2) (height : Nat)
    (small : height ≤ 2 ^ 16) (soon : height ≤ adjustedTime) :
    ∃ dag, origin.acceptEach crate (arrivals side height adjustedTime) = .ok dag ∧ Grown side height dag := by
  induction height with
  | zero => exact ⟨origin, rfl, grown_zero side⟩
  | succ height ih =>
    obtain ⟨_, accepted, grown⟩ := ih (by omega) (by omega)
    obtain ⟨next, inserted, grownNext⟩ := grown.step isSide (by omega) (show height ≤ adjustedTime by omega)
    refine ⟨next, ?_, grownNext⟩
    rw [arrivals, branch_succ, List.map_append, acceptEach, foldOutcome_append]
    rw [acceptEach, arrivals] at accepted
    rw [accepted]
    simp [foldOutcome_cons, accept, inserted]

def chain (side count : Nat) : List Header := header 0 :: branch side count

theorem chain_length (side count : Nat) : (chain side count).length = count + 1 := by
  simp [chain, branch]

theorem chain_getElem? {count : Nat} (inside : height ≤ count) :
    (chain side count)[height]? = some (header (nonceAt side height)) := by
  cases height with
  | zero => simp [chain, nonceAt]
  | succ height =>
    simp [chain, branch, nonceAt, List.getElem?_range (show height < count by omega)]

end Fixture

end Rbtc.Headers
