import Rbtc.Chainstate.Block
import Rbtc.Foundation.HashTree
import Rbtc.Headers.Dag

/-! What a transaction Merkle root commits to, and proofs of inclusion (`merkle_proof.rs`). -/

namespace Rbtc.Chainstate

open Foundation Bitcoin HashTree TxMerkleNode List

variable {crate : ChainCrate}

def IsInnerNode (crate : ChainCrate) (transactionIds : List Txid) (node : Nat) : Prop :=
  ∃ lower, 1 < (levelAt crate.hashPair lower (transactionIds.map Txid.value)).length ∧
    node ∈ levelAt crate.hashPair (lower + 1) (transactionIds.map Txid.value)

theorem merkleLevel_eq (hashes : List Nat) :
    merkleLevel crate hashes = (parents crate.hashPair hashes, joinsEqual hashes) := by
  induction hashes using parents.induct with
  | case1 _ _ _ ih => simp [merkleLevel, parents, joinsEqual, ih]
  | case2 _ => simp [merkleLevel, parents, joinsEqual]
  | case3 => simp [merkleLevel, parents, joinsEqual]

theorem merkleLevels_eq {hashes : List Nat} {height root : Nat} (climbs : Climbs crate.hashPair hashes height root)
    {rounds : Nat} (enough : height ≤ rounds) (mutated : Bool) :
    (merkleLevels crate rounds hashes mutated).1 = some root ∧ ((merkleLevels crate rounds hashes mutated).2 = true ↔
        mutated = true ∨ ∃ lower < height, joinsEqual (levelAt crate.hashPair lower hashes) = true) := by
  induction height generalizing hashes rounds mutated with
  | zero =>
    have top : hashes = [root] := climbs.top
    rw [top, merkleLevels]
    simp
  | succ height ih =>
    have several : 1 < hashes.length := climbs.below 0 (Nat.succ_pos _)
    have above : Climbs crate.hashPair (parents crate.hashPair hashes) height root :=
      ⟨climbs.top, fun lower isLower => climbs.below (lower + 1) (Nat.succ_lt_succ isLower)⟩
    obtain ⟨rounds, rfl⟩ : ∃ fewer, rounds = fewer + 1 := ⟨rounds - 1, by omega⟩
    obtain - | ⟨first, - | ⟨second, rest⟩⟩ := hashes
    · simp at several
    · simp at several
    obtain ⟨isRoot, isMutated⟩ :=
      ih above (Nat.le_of_succ_le_succ enough) (mutated || joinsEqual (first :: second :: rest))
    rw [merkleLevels, merkleLevel_eq]
    · refine ⟨isRoot, isMutated.trans ?_⟩
      rw [Bool.or_eq_true, or_assoc]
      refine or_congr Iff.rfl ⟨?_, ?_⟩
      · rintro (here | ⟨lower, isLower, later⟩)
        · exact ⟨0, Nat.succ_pos _, here⟩
        · exact ⟨lower + 1, Nat.succ_lt_succ isLower, later⟩
      rintro ⟨lower, isLower, found⟩
      cases lower with
      | zero => exact .inl found
      | succ lower => exact .inr ⟨lower, Nat.lt_of_succ_lt_succ isLower, found⟩
    · simp
    · simp

theorem transactionMerkleRoot_eq {transactionIds : List Txid} {height root : Nat}
    (climbs : Climbs crate.hashPair (transactionIds.map Txid.value) height root) :
    (transactionMerkleRoot crate transactionIds).1 = some ⟨root⟩ ∧
      ((transactionMerkleRoot crate transactionIds).2 = true ↔
        ∃ lower < height, joinsEqual (levelAt crate.hashPair lower (transactionIds.map Txid.value)) = true) := by
  have enough : height ≤ transactionIds.length := by
    rw [climbs.height_eq, length_map]
    exact Nat.clog_le_of_le_pow Nat.lt_two_pow_self.le
  obtain ⟨isRoot, isMutated⟩ := merkleLevels_eq climbs enough false
  refine ⟨congrArg (Option.map mk) isRoot, isMutated.trans ?_⟩
  rw [Bool.false_eq_true, false_or]

theorem map_value_injective {left right : List Txid} (same : left.map Txid.value = right.map Txid.value) :
    left = right :=
  map_injective_iff.mpr (fun _ _ => Txid.ext) same

theorem eq_of_root_eq (injective : JoinInjective crate.hashPair) {shorter longer : List Txid} (nonempty : shorter ≠ [])
    (le : shorter.length ≤ longer.length) (shorterOutside : ∀ id ∈ shorter, ¬ IsInnerNode crate longer id.value)
    (longerOutside : ∀ id ∈ longer, ¬ IsInnerNode crate shorter id.value)
    (same : (transactionMerkleRoot crate shorter).1 = (transactionMerkleRoot crate longer).1) :
    shorter = longer ∨ (transactionMerkleRoot crate longer).2 = true := by
  have nonempty' : longer ≠ [] := by
    rintro rfl
    exact nonempty (length_eq_zero_iff.mp (Nat.le_zero.mp le))
  obtain ⟨height, root, climbs⟩ := @exists_climbs _ crate.hashPair (shorter.map Txid.value) (by simpa using nonempty)
  obtain ⟨height', root', climbs'⟩ := @exists_climbs _ crate.hashPair (longer.map Txid.value) (by simpa using nonempty')
  obtain rfl : root = root' := by
    rw [(transactionMerkleRoot_eq climbs).1, (transactionMerkleRoot_eq climbs').1] at same
    exact congrArg value (Option.some.inj same)
  have outside : ∀ {left right : List Txid}, (∀ id ∈ left, ¬ IsInnerNode crate right id.value) →
      ∀ hash ∈ left.map Txid.value, ∀ lower, 1 < (levelAt crate.hashPair lower (right.map Txid.value)).length →
        hash ∉ levelAt crate.hashPair (lower + 1) (right.map Txid.value) := by
    intro left right outside hash member lower several isInner
    obtain ⟨id, isId, rfl⟩ := mem_map.mp member
    exact outside id isId ⟨lower, several, isInner⟩
  obtain rfl : height = height' := le_antisymm
    (height_le_of_outside injective climbs' climbs (outside longerOutside))
    (height_le_of_outside injective climbs climbs' (outside shorterOutside))
  have le' : (shorter.map Txid.value).length ≤ (longer.map Txid.value).length := by simpa using le
  rcases eq_of_levelAt_eq injective le' (climbs.top.trans climbs'.top.symm) with equal | mutated
  · exact .inl (map_value_injective equal)
  · exact .inr ((transactionMerkleRoot_eq climbs').2.mpr mutated)

/-- Lists accepted with one root are the same, and a list that repeats its last ids is reported. -/
theorem merkle_root_commits (injective : JoinInjective crate.hashPair) {left right : List Txid}
    (leftNonempty : left ≠ [])
    (rightNonempty : right ≠ []) (leftOutside : ∀ id ∈ left, ¬ IsInnerNode crate right id.value)
    (rightOutside : ∀ id ∈ right, ¬ IsInnerNode crate left id.value)
    (same : (transactionMerkleRoot crate left).1 = (transactionMerkleRoot crate right).1) :
    ((transactionMerkleRoot crate left).2 = false → (transactionMerkleRoot crate right).2 = false → left = right) ∧
      ∀ start < left.length, right = left ++ left.drop start → (transactionMerkleRoot crate right).2 = true := by
  constructor
  · intro leftAccepted rightAccepted
    rcases Nat.le_total left.length right.length with le | le
    · rcases eq_of_root_eq injective leftNonempty le leftOutside rightOutside same with equal | mutated
      · exact equal
      · rw [rightAccepted] at mutated
        cases mutated
    · rcases eq_of_root_eq injective rightNonempty le rightOutside leftOutside same.symm with equal | mutated
      · exact equal.symm
      · rw [leftAccepted] at mutated
        cases mutated
  · intro start inside repeats
    have longer : left.length < right.length := by
      rw [repeats, length_append, length_drop]
      omega
    rcases eq_of_root_eq injective leftNonempty longer.le leftOutside rightOutside same with equal | mutated
    · rw [equal] at longer
      exact absurd longer (Nat.lt_irrefl _)
    · exact mutated

def pairingCrate : ChainCrate :=
  { Headers.Fixture.crate with
    computeTxid := fun _ => ⟨0⟩
    hashPair := fun left right => 2 * Nat.pair left right + 1
    checkWitnessCommitment := fun _ => true
    signetSolution := fun _ _ => true
    verifyTransaction := fun _ _ _ => none }

theorem pairing_injective : JoinInjective pairingCrate.hashPair := by
  intro left right left' right' same
  have pairs : 2 * Nat.pair left right + 1 = 2 * Nat.pair left' right' + 1 := same
  exact Nat.pair_eq_pair.mp (by omega)

theorem pairing_ne_of_even {value : Nat} (even : value % 2 = 0) (left right : Nat) :
    value ≠ pairingCrate.hashPair left right := by
  intro same
  have odd : value = 2 * Nat.pair left right + 1 := same
  omega

theorem pairing_outside {transactionIds : List Txid} {value : Nat} (even : value % 2 = 0) :
    ¬ IsInnerNode pairingCrate transactionIds value := by
  rintro ⟨_, -, member⟩
  rw [levelAt_succ] at member
  obtain ⟨left, -, right, isJoin⟩ := exists_join_of_mem_parents member
  exact pairing_ne_of_even even left right isJoin

theorem merkle_root_reports_repeated_id :
    (transactionMerkleRoot pairingCrate [⟨2⟩, ⟨4⟩, ⟨6⟩]).1 =
    (transactionMerkleRoot pairingCrate [⟨2⟩, ⟨4⟩, ⟨6⟩, ⟨6⟩]).1 ∧
      (transactionMerkleRoot pairingCrate [⟨2⟩, ⟨4⟩, ⟨6⟩, ⟨6⟩]).2 = true := by
  have same : (transactionMerkleRoot pairingCrate [⟨2⟩, ⟨4⟩, ⟨6⟩]).1 =
      (transactionMerkleRoot pairingCrate [⟨2⟩, ⟨4⟩, ⟨6⟩, ⟨6⟩]).1 := by decide +kernel
  refine ⟨same, (merkle_root_commits pairing_injective (by simp) (by simp) ?_ ?_ same).2 2 (by decide) rfl⟩
  · intro id member
    exact pairing_outside (by revert id; decide)
  · intro id member
    exact pairing_outside (by revert id; decide)

inductive MerkleProofError where
  | branchTooDeep
  | positionOutOfRange
  | rootMismatch
  deriving DecidableEq, Repr

def climbLevel (crate : ChainCrate) (reached : Nat × Nat) (sibling : TxMerkleNode) : Nat × Nat :=
  (if reached.2 % 2 = 0 then crate.hashPair reached.1 sibling.value else crate.hashPair sibling.value reached.1,
    reached.2 / 2)

def verifyTransactionMerkleProof (crate : ChainCrate) (txid : Txid) (position : Nat) (siblings : List TxMerkleNode)
    (expectedRoot : TxMerkleNode) : Except MerkleProofError Unit :=
  if 32 < siblings.length then .error .branchTooDeep
  else
    let (node, index) := siblings.foldl (climbLevel crate) (txid.value, position)
    if index ≠ 0 then .error .positionOutOfRange
    else if mk node ≠ expectedRoot then .error .rootMismatch
    else .ok ()

def honestBranch (crate : ChainCrate) (transactionIds : List Txid) (position : Nat) : List TxMerkleNode :=
  (branchOf crate.hashPair (Nat.clog 2 transactionIds.length) (transactionIds.map Txid.value) position).map mk

section
variable {txid : Txid} {position : Nat} {siblings : List TxMerkleNode} {root : Nat}

theorem foldl_climbLevel (node index : Nat) : siblings.foldl (climbLevel crate) (node, index) =
    (climb crate.hashPair node index (siblings.map value), index / 2 ^ siblings.length) := by
  induction siblings generalizing node index with
  | nil => simp [climb]
  | cons _ _ ih =>
    rw [foldl_cons, climbLevel, ih, map_cons, climb, length_cons, Nat.pow_succ', Nat.div_div_eq_div_mul]

theorem verifyTransactionMerkleProof_eq_ok : verifyTransactionMerkleProof crate txid position siblings ⟨root⟩ = .ok () ↔
    siblings.length ≤ 32 ∧ position < 2 ^ siblings.length ∧
      climb crate.hashPair txid.value position (siblings.map value) = root := by
  rw [verifyTransactionMerkleProof, foldl_climbLevel]
  dsimp only
  split
  · next deep => exact iff_of_false nofun fun holds => absurd holds.1 (by omega)
  have bounded : position / 2 ^ siblings.length = 0 ↔ position < 2 ^ siblings.length :=
    Nat.div_eq_zero_iff_lt (Nat.two_pow_pos _)
  split
  · next outside => exact iff_of_false nofun fun holds => outside (bounded.mpr holds.2.1)
  rename_i inside
  split
  · next other => exact iff_of_false nofun fun holds => other (congrArg mk holds.2.2)
  · next same =>
    refine iff_of_true rfl ⟨by omega, bounded.mp (not_not.mp inside), ?_⟩
    exact congrArg value (not_not.mp same)

variable {transactionIds : List Txid} {height : Nat}

section
variable (injective : JoinInjective crate.hashPair)
  (climbs : Climbs crate.hashPair (transactionIds.map Txid.value) height root)
  (leaves : ∀ id ∈ transactionIds, ∀ left right, id.value ≠ crate.hashPair left right)
  (isLeaf : ∀ left right, txid.value ≠ crate.hashPair left right)
  (verified : verifyTransactionMerkleProof crate txid position siblings ⟨root⟩ = .ok ())
include injective climbs leaves isLeaf verified

theorem length_of_verified : siblings.length = height := by
  obtain ⟨-, -, reaches⟩ := verifyTransactionMerkleProof_eq_ok.mp verified
  have bottom : ∀ hash ∈ transactionIds.map Txid.value, ∀ left right, hash ≠ crate.hashPair left right := by
    intro hash member
    obtain ⟨id, isId, rfl⟩ := mem_map.mp member
    exact leaves id isId
  have length := length_eq_of_climb_eq injective climbs bottom isLeaf reaches
  rwa [length_map] at length

theorem getElem?_of_verified (inside : position < transactionIds.length) : transactionIds[position]? = some txid := by
  have length := length_of_verified injective climbs leaves isLeaf verified
  obtain ⟨-, bounded, reaches⟩ := verifyTransactionMerkleProof_eq_ok.mp verified
  have found : (levelAt crate.hashPair 0 (transactionIds.map Txid.value))[position]? = some txid.value := by
    have top : (levelAt crate.hashPair (0 + (siblings.map value).length) (transactionIds.map Txid.value))[
        position / 2 ^ (siblings.map value).length]? =
          some (climb crate.hashPair txid.value position (siblings.map value)) := by
      rw [Nat.zero_add, length_map, Nat.div_eq_of_lt bounded, reaches, length, climbs.top]
      rfl
    exact getElem?_of_climb injective (by simpa [levelAt] using inside) top
  rw [levelAt, getElem?_map, Option.map_eq_some_iff] at found
  obtain ⟨_, isId, same⟩ := found
  rw [isId, Txid.ext same]

end

variable (climbs : Climbs crate.hashPair (transactionIds.map Txid.value) height root)
include climbs

theorem honestBranch_verifies (few : transactionIds.length ≤ 2 ^ 32) (isId : transactionIds[position]? = some txid) :
    verifyTransactionMerkleProof crate txid position (honestBranch crate transactionIds position) ⟨root⟩ = .ok () := by
  have isHeight : height = Nat.clog 2 transactionIds.length := by rw [climbs.height_eq, length_map]
  have isNode : (transactionIds.map Txid.value)[position]? = some txid.value := by rw [getElem?_map, isId]; rfl
  obtain ⟨reaches, length, bounded⟩ := climb_branchOf climbs.top isNode
  rw [isHeight] at reaches length bounded
  rw [verifyTransactionMerkleProof_eq_ok, honestBranch, map_map, length_map, length]
  refine ⟨Nat.clog_le_of_le_pow few, bounded, ?_⟩
  exact (congrArg _ (map_id _)).trans reaches

theorem exists_verified_beyond
    (few : transactionIds.length ≤ 2 ^ 32) (uneven : ¬ ∃ power, transactionIds.length = 2 ^ power) :
    ∃ id ∈ transactionIds, ∃ position branch, position < 2 ^ 32 ∧ transactionIds.length ≤ position ∧
      verifyTransactionMerkleProof crate id position branch ⟨root⟩ = .ok () := by
  have deep : height ≤ 32 := by
    rw [climbs.height_eq, length_map]
    exact Nat.clog_le_of_le_pow few
  obtain ⟨_, isNode, index, siblings, length, bounded, beyond, reaches⟩ :=
    exists_branch_beyond climbs (by rwa [length_map])
  obtain ⟨id, isId, rfl⟩ := mem_map.mp isNode
  rw [length_map] at beyond
  refine ⟨id, isId, index, siblings.map mk, bounded.trans_le (Nat.pow_le_pow_right (by decide) deep), beyond, ?_⟩
  rw [verifyTransactionMerkleProof_eq_ok, map_map, length_map, length]
  exact ⟨deep, bounded, (congrArg _ (map_id _)).trans reaches⟩

end

/-- Accepted proofs give the id at their position exactly for lists whose length is a power of two. -/
theorem merkle_proof_sound_iff (injective : JoinInjective crate.hashPair) {transactionIds : List Txid}
    (nonempty : transactionIds ≠ []) (few : transactionIds.length ≤ 2 ^ 32) {root : TxMerkleNode}
    (isRoot : (transactionMerkleRoot crate transactionIds).1 = some root)
    (leaves : ∀ id ∈ transactionIds, ∀ left right, id.value ≠ crate.hashPair left right) :
    ((∀ (txid : Txid) (position : Nat) (branch : List TxMerkleNode),
        (∀ left right, txid.value ≠ crate.hashPair left right) → position < 2 ^ 32 →
        verifyTransactionMerkleProof crate txid position branch root = .ok () →
          position < transactionIds.length ∧ transactionIds[position]? = some txid) ↔
      ∃ power, transactionIds.length = 2 ^ power) ∧ (∀ (txid : Txid) (position : Nat) (branch : List TxMerkleNode),
      (∀ left right, txid.value ≠ crate.hashPair left right) →
      verifyTransactionMerkleProof crate txid position branch root = .ok () → position < transactionIds.length →
        transactionIds[position]? = some txid) ∧
    ∀ (txid : Txid) (position : Nat), transactionIds[position]? = some txid →
      verifyTransactionMerkleProof crate txid position (honestBranch crate transactionIds position) root = .ok () := by
  obtain ⟨_, _, climbs⟩ := @exists_climbs _ crate.hashPair (transactionIds.map Txid.value) (by simpa using nonempty)
  obtain rfl := Option.mem_unique isRoot ((transactionMerkleRoot_eq climbs).1)
  refine ⟨⟨fun sound => ?_, ?_⟩, ?_, ?_⟩
  · by_contra uneven
    obtain ⟨id, isId, position, branch, bounded, beyond, verified⟩ := exists_verified_beyond climbs few uneven
    exact absurd (sound id position branch (leaves id isId) bounded verified).1 (Nat.not_lt.mpr beyond)
  · rintro ⟨power, isPower⟩ txid position branch isLeaf - verified
    have length := length_of_verified injective climbs leaves isLeaf verified
    have bounded := (verifyTransactionMerkleProof_eq_ok.mp verified).2.1
    rw [length, climbs.height_eq, length_map, isPower, Nat.clog_pow 2 power (by decide), ← isPower] at bounded
    exact ⟨bounded, getElem?_of_verified injective climbs leaves isLeaf verified bounded⟩
  · intro txid position branch isLeaf verified inside
    exact getElem?_of_verified injective climbs leaves isLeaf verified inside
  · intro txid position isId
    exact honestBranch_verifies climbs few isId

theorem merkle_proof_sound_two_ids :
    (transactionMerkleRoot pairingCrate [⟨2⟩, ⟨4⟩]).1 = some ⟨pairingCrate.hashPair 2 4⟩ ∧
      ∀ (txid : Txid) (position : Nat) (branch : List TxMerkleNode), txid.value % 2 = 0 → position < 2 ^ 32 →
        verifyTransactionMerkleProof pairingCrate txid position branch ⟨pairingCrate.hashPair 2 4⟩ = .ok () →
          position < 2 ∧ [(⟨2⟩ : Txid), ⟨4⟩][position]? = some txid := by
  have leaves : ∀ id ∈ [(⟨2⟩ : Txid), ⟨4⟩], ∀ left right, id.value ≠ pairingCrate.hashPair left right := by
    intro id member
    exact pairing_ne_of_even (by revert id; decide)
  have isRoot : (transactionMerkleRoot pairingCrate [⟨2⟩, ⟨4⟩]).1 =
    some ⟨pairingCrate.hashPair 2 4⟩ := by decide +kernel
  have sound := (merkle_proof_sound_iff pairing_injective (by simp) (by decide) isRoot leaves).1.mpr ⟨1, rfl⟩
  exact ⟨isRoot, fun txid position branch even bounded verified =>
    sound txid position branch (pairing_ne_of_even even) bounded verified⟩

/-- The third of three ids is accepted at the fourth position. -/
theorem merkle_proof_accepts_position_beyond : (transactionMerkleRoot pairingCrate [⟨2⟩, ⟨4⟩, ⟨6⟩]).2 = false ∧
      ∃ root, (transactionMerkleRoot pairingCrate [⟨2⟩, ⟨4⟩, ⟨6⟩]).1 = some root ∧
        verifyTransactionMerkleProof pairingCrate ⟨6⟩ 3 [⟨6⟩, ⟨pairingCrate.hashPair 2 4⟩] root = .ok () := by
  refine ⟨by decide +kernel, ⟨pairingCrate.hashPair (pairingCrate.hashPair 2 4) (pairingCrate.hashPair 6 6)⟩, ?_, ?_⟩
  · decide +kernel
  · decide +kernel

end Rbtc.Chainstate
