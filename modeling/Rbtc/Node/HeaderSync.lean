import Rbtc.Headers.Context

/-! Headers-first synchronisation with one peer: locator, page, filter, and request loop. The locator
lists the active chain at heights that depend on the height of the tip alone. -/

namespace Rbtc.Node

open Foundation Bitcoin Headers

def maxHeadersPerResponse : Nat := 2000

/-- The loop of `block_locator`. The height falls in every round, so the starting height bounds
the number of rounds. -/
def locatorFrom (dag : HeaderDag) : Nat → Nat → Nat → List BlockHash → Outcome HeaderError (List BlockHash)
  | 0, _, _, _ => .error .panicked
  | rounds + 1, height, step, locator => do
      let info ← require (dag.activeHeaderAt height) .panicked
      let extended := locator ++ [info.hash]
      if height = 0 then return extended
      else
        locatorFrom dag rounds (height - step)
          (if 10 < extended.length then saturatingMul 32 step 2 else step) extended

def blockLocator (dag : HeaderDag) : Outcome HeaderError (List BlockHash) := do
  let tip ← dag.activeTipInfo
  locatorFrom dag (tip.height + 1) tip.height 1 []

section
variable (crate : HeaderCrate)

def activeHeight (chain : List Header) (hash : BlockHash) : Option Nat :=
  (chain.map crate.blockHash).idxOf? hash

/-- The headers after the first locator entry on the serving peer's active chain, up to a limit. -/
def headersAfterLocator (chain : List Header) (locator : List BlockHash)
    (limit : Nat) : List Header :=
  let start := (locator.findSome? (activeHeight crate chain)).getD 0 + 1
  (chain.drop start).take limit

/-- The headers of a response from the first unknown one on; a known header after it is refused. -/
def unseenHeaderSuffix (dag : HeaderDag) (headers : List Header) :
    Except HeaderError (List Header) :=
  let firstUnseen := headers.findIdx fun header =>
    dag.headers.lookup (crate.blockHash header) = none
  let unseen := headers.drop firstUnseen
  match unseen.find? fun header => dag.headers.lookup (crate.blockHash header) ≠ none with
  | some duplicate => .error (.duplicate (crate.blockHash duplicate))
  | none => .ok unseen

/-- How the request loop ends. `unfinished` means that the given rounds did not suffice. -/
inductive SyncResult where
  | finished (dag : HeaderDag)
  | failed (error : HeaderError) (dag : HeaderDag)
  | panicked
  | unfinished

/-- The request loop of `sync_headers`. Appending an accepted page to the store is taken to succeed. -/
def syncHeaders (crate : HeaderCrate) (peer : List BlockHash → List Header) (adjustedTime : Nat) :
    Nat → HeaderDag → SyncResult
  | 0, _ => .unfinished
  | rounds + 1, dag =>
    match blockLocator dag with
    | .error _ => .panicked
    | .ok locator =>
      let headers := peer locator
      if headers.length = 0 then .finished dag
      else
        match unseenHeaderSuffix crate dag headers with
        | .error error => .failed error dag
        | .ok unseen =>
          if unseen.isEmpty then .finished dag
          else
            match dag.stageBatchContextual crate unseen adjustedTime with
            | .panicked => .panicked
            | .refused error after => .failed error after
            | .staged batch =>
              if headers.length < maxHeadersPerResponse then .finished batch.commit.1
              else syncHeaders crate peer adjustedTime rounds batch.commit.1

def honestPeer (chain : List Header) (locator : List BlockHash) :
    List Header :=
  headersAfterLocator crate chain locator maxHeadersPerResponse

end

open HeaderDag List Option

variable {crate : HeaderCrate} {dag dag' : HeaderDag}

theorem activeHeaderAt_of_active (valid : dag.Valid crate) {height : Nat} {hash : BlockHash}
    (active : dag.activeChain[height]? = some hash) :
    ∃ info, dag.activeHeaderAt height = some info ∧ info.hash = hash := by
  obtain ⟨info, found, -⟩ := valid.active.entry height hash active
  exact ⟨info, by simp [activeHeaderAt, active, found], (valid.rooted.keyed _ _ found).1⟩

/-- The heights the loop of `block_locator` visits once `count` entries are listed. -/
def locatorHeights : Nat → Nat → Nat → Nat → List Nat
  | 0, _, _, _ => []
  | rounds + 1, height, step, count =>
      if height = 0 then [height]
      else height :: locatorHeights rounds (height - step)
        (if 10 < count + 1 then saturatingMul 32 step 2 else step) (count + 1)

theorem locatorFrom_eq (valid : dag.Valid crate) (rounds height step : Nat) (locator : List BlockHash)
    (positive : 0 < step) (enough : height < rounds) (inside : height < dag.activeChain.length) :
    ∃ rest, locatorFrom dag rounds height step locator = .ok (locator ++ rest) ∧
      rest.map some = (locatorHeights rounds height step locator.length).map (dag.activeChain[·]?) := by
  induction rounds generalizing height step locator with
  | zero => omega
  | succ _ ih =>
    have active := getElem?_eq_getElem inside
    obtain ⟨info, atHeight, hashed⟩ := activeHeaderAt_of_active valid active
    rw [← hashed] at active
    simp only [locatorFrom, locatorHeights, atHeight, require, ok_bind, length_append, length_singleton]
    by_cases lowest : height = 0
    · rw [if_pos lowest, if_pos lowest]
      exact ⟨[info.hash], rfl, by rw [map_singleton, map_singleton, active]⟩
    obtain ⟨rest, continued, listed⟩ := ih (height - step)
      (if 10 < locator.length + 1 then saturatingMul 32 step 2 else step) (locator ++ [info.hash])
      (by
        unfold saturatingMul saturate
        split <;> omega)
      (by omega) (by omega)
    rw [if_neg lowest, if_neg lowest, continued, append_assoc]
    refine ⟨info.hash :: rest, rfl, ?_⟩
    rw [map_cons, map_cons, listed, active, length_append, length_singleton]

variable {rounds height step count : Nat}

theorem le_of_mem_locatorHeights {entry : Nat} (listed : entry ∈ locatorHeights rounds height step count) :
    entry ≤ height := by
  fun_induction locatorHeights rounds height step count with
  | case1 => simp at listed
  | case2 => simp at listed; omega
  | case3 rounds height step count lowest ih =>
    rcases mem_cons.mp listed with rfl | later
    · exact Nat.le_refl _
    · exact (ih later).trans (Nat.sub_le ..)

theorem locatorHeights_head (enough : height < rounds) :
    (locatorHeights rounds height step count).head? = some height := by
  fun_cases locatorHeights rounds height step count with
  | case1 => omega
  | case2 => rfl
  | case3 => rfl

theorem locatorHeights_decreasing (positive : 0 < step) :
    (locatorHeights rounds height step count).Pairwise (· > ·) := by
  fun_induction locatorHeights rounds height step count with
  | case1 => exact .nil
  | case2 => exact pairwise_singleton ..
  | case3 rounds height step count lowest ih =>
    refine .cons (fun entry later => ?_) (ih ?_)
    · have := le_of_mem_locatorHeights later
      omega
    · unfold saturatingMul saturate
      split <;> omega

theorem locatorHeights_last (positive : 0 < step) (enough : height < rounds) :
    (locatorHeights rounds height step count).getLast? = some 0 := by
  fun_induction locatorHeights rounds height step count with
  | case1 => omega
  | case2 => exact getLast?_singleton
  | case3 rounds height step count lowest ih =>
    rw [getLast?_cons, ih _ (by omega)]
    · rfl
    · unfold saturatingMul saturate
      split <;> omega

/-- After ten entries the step doubles in every round, and the depth below the tip grows with it. -/
theorem locatorHeights_length {tip : Nat} (small : tip < 2 ^ 32) (below : height ≤ tip) (few : count ≤ 42)
    (grown : height ≠ 0 → 2 ^ (count - 10) ≤ step ∧ 2 ^ (count - 10) ≤ tip - height + 1) :
    count + (locatorHeights rounds height step count).length ≤ 43 := by
  fun_induction locatorHeights rounds height step count with
  | case1 => rw [length_nil]; omega
  | case2 => rw [length_singleton]; omega
  | case3 rounds height step count above ih =>
    have fewer : count - 10 < 32 := (Nat.pow_lt_pow_iff_right (a := 2) (by decide)).mp (by omega)
    have doubled : 2 ^ (count + 1 - 10) ≤ 2 * 2 ^ (count - 10) := by
      rw [← Nat.pow_succ']
      exact Nat.pow_le_pow_right (by decide) (by omega)
    have unchanged : count < 10 → 2 ^ (count + 1 - 10) = 1 := fun early => by
      rw [Nat.sub_eq_zero_of_le early, Nat.pow_zero]
    have := ih (by omega) (by omega) fun above' => ⟨?_, by omega⟩
    · rw [length_cons]
      omega
    · unfold saturatingMul saturate
      split <;> omega

/-- The step never exceeds the depth by more than two, so the next entry is at most twice as deep. -/
theorem locatorHeights_cover {tip target : Nat} (below : height ≤ tip) (enough : height < rounds)
    (positive : 0 < step) (slow : step ≤ tip - height + 2 ∨ height = 0) (inside : target ≤ height) :
    ∃ entry ∈ locatorHeights rounds height step count, entry ≤ target ∧
      (∀ other ∈ locatorHeights rounds height step count, other ≤ target → other ≤ entry) ∧
      tip - entry ≤ 2 * (tip - target) := by
  fun_induction locatorHeights rounds height step count with
  | case1 => omega
  | case2 => exact ⟨0, mem_singleton_self _, Nat.zero_le _, fun _ only _ => (mem_singleton.mp only).le, by omega⟩
  | case3 rounds height step count above ih =>
    rcases inside.eq_or_lt with rfl | inside
    · exact ⟨target, mem_cons_self, Nat.le_refl _, fun _ _ under => under, by omega⟩
    by_cases reached : height - step ≤ target
    · exact ⟨height - step, mem_cons_of_mem _ (mem_of_mem_head? (locatorHeights_head (by omega))), reached,
        fun other listed under => le_of_mem_locatorHeights ((mem_cons.mp listed).resolve_left (by omega)), by omega⟩
    obtain ⟨entry, listed, under, highest, near⟩ := ih (by omega) (by omega) (by
        unfold saturatingMul saturate
        split <;> omega)
      (by
        unfold saturatingMul saturate
        split <;> omega)
      (by omega)
    exact ⟨entry, mem_cons_of_mem _ listed, under,
      fun other listed' under' => highest other ((mem_cons.mp listed').resolve_left (by omega)) under', near⟩

theorem blockLocator_eq (valid : dag.Valid crate) : ∃ locator, blockLocator dag = .ok locator ∧
    locator.map some = (locatorHeights dag.activeChain.length (dag.activeChain.length - 1) 1 0).map
      (dag.activeChain[·]?) := by
  obtain ⟨tip, tipInfo, tipFound⟩ := valid.activeTipInfo_eq
  obtain ⟨_, tipFound', length⟩ := valid.tip_retained
  obtain rfl := mem_unique tipFound tipFound'
  obtain ⟨locator, built, listed⟩ := locatorFrom_eq valid (tip.height + 1) tip.height 1 [] Nat.one_pos
    (Nat.lt_succ_self _) (by omega)
  refine ⟨locator, by simp [blockLocator, tipInfo, built], ?_⟩
  rw [length]
  exact listed

theorem blockLocator_spec (valid : dag.Valid crate) :
    ∃ locator, blockLocator dag = .ok locator ∧ locator.head? = some dag.activeTip ∧
      (∀ hash ∈ locator, hash ∈ dag.activeChain) ∧
      locator.getLast? = some (genesisInfo crate dag.deployments.network).hash := by
  obtain ⟨locator, built, listed⟩ := blockLocator_eq valid
  have nonempty := (List.getElem_of_getElem? valid.tip_mem).1
  refine ⟨locator, built, ?_, fun hash member => ?_, ?_⟩
  · have head := congrArg head? listed
    rw [head?_map, head?_map, locatorHeights_head (by omega), map_some, valid.tip_mem] at head
    exact Option.map_injective (some_injective _) head
  · have member' := mem_map_of_mem (f := some) member
    rw [listed] at member'
    obtain ⟨height, -, active⟩ := mem_map.mp member'
    exact mem_of_getElem? active
  · have last := congrArg getLast? listed
    rw [getLast?_map, getLast?_map, locatorHeights_last Nat.one_pos (by omega), map_some, valid.genesis_active] at last
    exact Option.map_injective (some_injective _) last

theorem locatorFrom_congr (sameActive : ∀ height, dag'.activeHeaderAt height =
    dag.activeHeaderAt height) (rounds height step : Nat) (locator : List BlockHash) :
    locatorFrom dag' rounds height step locator = locatorFrom dag rounds height step locator := by
  induction rounds generalizing height step locator with
  | zero => rfl
  | succ _ ih => simp [locatorFrom, sameActive, ih]

/-- The locator lists the active chain at decreasing heights, from the tip to genesis, with at most 43
entries, and meets every prefix of the chain within twice the depth at which it ends. -/
theorem blockLocator_covers (valid : dag.Valid crate) (small : dag.activeChain.length ≤ 2 ^ 32) :
    ∃ (locator : List BlockHash) (heights : List Nat), blockLocator dag = .ok locator ∧
      locator.map some = heights.map (dag.activeChain[·]?) ∧ locator.length ≤ 43 ∧
      locator.head? = some dag.activeTip ∧ heights.Pairwise (· > ·) ∧
      locator.getLast? = some (genesisInfo crate dag.deployments.network).hash ∧ locator.Nodup ∧
      ∀ height < dag.activeChain.length, ∃ entry ∈ heights, entry ≤ height ∧
        (∀ other ∈ heights, other ≤ height → other ≤ entry) ∧
        dag.activeChain.length - 1 - entry ≤ 2 * (dag.activeChain.length - 1 - height) := by
  obtain ⟨locator, built, listed⟩ := blockLocator_eq valid
  obtain ⟨_, built', head, -, last⟩ := blockLocator_spec valid
  obtain rfl : locator = _ := by simpa [built] using built'
  have decreasing := @locatorHeights_decreasing dag.activeChain.length (dag.activeChain.length - 1) 1 0 Nat.one_pos
  have short := @locatorHeights_length dag.activeChain.length (dag.activeChain.length - 1) 1 0 _ (by omega)
    (Nat.le_refl _) (by omega) fun _ => ⟨by decide, by omega⟩
  refine ⟨locator, _, built, listed, ?_, head, decreasing, last, ?_, fun height inside => ?_⟩
  · have := congrArg length listed
    rw [length_map, length_map] at this
    omega
  · refine Nodup.of_map some ?_
    rw [listed]
    refine Nodup.map_on (fun height member height' _ same => ?_) (decreasing.imp Nat.ne_of_gt)
    have active := mem_map_of_mem (f := (dag.activeChain[·]?)) member
    rw [← listed] at active
    obtain ⟨hash, -, active⟩ := mem_map.mp active
    obtain ⟨info, found, atHeight, -⟩ := valid.active.entry height hash active.symm
    obtain ⟨info', found', atHeight', -⟩ := valid.active.entry height' hash (same ▸ active.symm)
    obtain rfl := mem_unique found found'
    exact atHeight.symm.trans atHeight'
  · exact locatorHeights_cover (Nat.le_refl _) (by omega) Nat.one_pos (by omega) (by omega)

theorem blockLocator_covers_hundred : ∃ dag, Valid Fixture.crate dag ∧ dag.activeChain.length = 101 ∧
    ∃ locator, blockLocator dag = .ok locator ∧ locator.length ≤ 43 := by
  obtain ⟨dag, -, grown⟩ := Fixture.grow 0 100 (by decide) 100 (by decide) (by decide)
  have valid := grown.gathers.valid
  obtain ⟨tip, found, length⟩ := valid.tip_retained
  obtain rfl := mem_unique (grown.tip ▸ found) grown.tip_found
  obtain ⟨locator, _, located, -, short, -⟩ := blockLocator_covers valid (by rw [length]; decide)
  exact ⟨dag, valid, length, locator, located, short⟩

def chainworkAt (crate : HeaderCrate) (chain : List Header) (height : Nat) : Nat :=
  ((chain.take (height + 1)).map fun header => crate.toWork (crate.target header)).sum

theorem chainworkAt_succ (crate : HeaderCrate) {chain : List Header} {height : Nat} {header : Header}
    (atNext : chain[height + 1]? = some header) : chainworkAt crate chain (height + 1) =
      chainworkAt crate chain height + crate.toWork (crate.target header) := by
  unfold chainworkAt
  rw [take_add_one, atNext]
  simp

/-- A header chain from genesis, accepted by `insert_contextual` throughout, with work below `2 ^ 256`. -/
structure HonestChain (crate : HeaderCrate) (deployments : DeploymentConfig) (adjustedTime : Nat)
    (chain : List Header) : Prop where
  genesis : chain[0]? = some (crate.genesisHeader deployments.network)
  linked : ∀ index header, chain[index + 1]? = some header →
    ∃ before, chain[index]? = some before ∧ header.prevBlockhash = crate.blockHash before
  accepted : ∃ peerDag, (withDeployments crate deployments).acceptEach crate
    (chain.tail.map fun header => .contextual header adjustedTime) = .ok peerDag
  bounded : chainworkAt crate chain (chain.length - 1) < 2 ^ 256

variable {deployments : DeploymentConfig} {adjustedTime : Nat} {chain : List Header}
  {header : Header}

namespace HonestChain

theorem chainworkAt_mono {low high : Nat} (le : low ≤ high) :
    chainworkAt crate chain low ≤ chainworkAt crate chain high := by
  obtain ⟨further, rfl⟩ := Nat.exists_eq_add_of_le le
  unfold chainworkAt
  rw [Nat.add_right_comm low further 1, take_add (i := low + 1), map_append, sum_append]
  exact Nat.le_add_right _ _

variable (honest : HonestChain crate deployments adjustedTime chain)
include honest

variable {index : Nat}

theorem known_info (collisionFree : CollisionFree crate) (valid : dag.Valid crate)
    (sameDeployments : dag.deployments = deployments) {info : HeaderInfo} (atIndex : chain[index]? = some header)
    (found : dag.headers.lookup (crate.blockHash header) = some info) :
    info.header = header ∧ info.height = index ∧ info.chainwork = chainworkAt crate chain index := by
  have sameHeader : info.header = header := collisionFree.injective (valid.rooted.keyed _ _ found).2
  refine ⟨sameHeader, ?_⟩
  induction index generalizing header info with
  | zero =>
    rw [honest.genesis, some.injEq] at atIndex
    have isGenesis := valid.rooted.root
    rw [sameDeployments] at isGenesis
    subst atIndex
    obtain rfl := mem_unique isGenesis found
    have nonempty := (List.getElem_of_getElem? honest.genesis).1
    obtain ⟨first, _, rfl⟩ := exists_cons_of_length_pos nonempty
    obtain rfl : first = crate.genesisHeader deployments.network := by
      simpa using honest.genesis
    simp [chainworkAt, genesisInfo]
  | succ index ih =>
    obtain ⟨_, atBefore, previous⟩ := honest.linked index header atIndex
    have above : crate.blockHash header ≠ (genesisInfo crate dag.deployments.network).hash := by
      intro isGenesis
      have same := collisionFree.injective isGenesis
      rw [same] at previous
      exact collisionFree.genesis_parent _ _ previous.symm
    obtain ⟨_, parentFound, admissible⟩ := valid.rooted.linked _ _ found above
    rw [sameHeader, previous] at parentFound
    have parentHeader := collisionFree.injective (valid.rooted.keyed _ _ parentFound).2
    obtain ⟨parentHeight, parentWork⟩ := ih atBefore parentFound parentHeader
    have step := chainworkAt_succ crate atIndex
    have total : chainworkAt crate chain (index + 1) < 2 ^ 256 := by
      have inside := (List.getElem_of_getElem? atIndex).1
      exact Nat.lt_of_le_of_lt (chainworkAt_mono (by omega)) honest.bounded
    refine ⟨by rw [admissible.height_eq, parentHeight], ?_⟩
    rw [admissible.chainwork_eq, parentWork, sameHeader, step, addWork_eq (by omega)]

theorem known_before (collisionFree : CollisionFree crate) (valid : dag.Valid crate) {before : Header}
    (atNext : chain[index + 1]? = some header) (atIndex : chain[index]? = some before)
    (known : dag.headers.lookup (crate.blockHash header) ≠ none) :
    dag.headers.lookup (crate.blockHash before) ≠ none := by
  obtain ⟨info, found⟩ := ne_none_iff_exists'.mp known
  have sameHeader : info.header = header := collisionFree.injective (valid.rooted.keyed _ _ found).2
  obtain ⟨_, atBefore, previous⟩ := honest.linked index header atNext
  obtain rfl := mem_unique atIndex atBefore
  have above : crate.blockHash header ≠ (genesisInfo crate dag.deployments.network).hash := by
    intro isGenesis
    rw [collisionFree.injective isGenesis] at previous
    exact collisionFree.genesis_parent _ _ previous.symm
  obtain ⟨parent, parentFound, -⟩ := valid.rooted.linked _ _ found above
  rw [sameHeader, previous] at parentFound
  rw [parentFound]
  exact some_ne_none parent

theorem accepted_at (atNext : chain[index + 1]? = some header) :
    ∃ (before : HeaderDag) (result : HeaderDag × HeaderInfo), before.Valid crate ∧ before.deployments = deployments ∧
      before.insertContextual crate header adjustedTime = .ok result ∧ ∀ earlier ∈ chain.take (index + 1),
        before.headers.lookup (crate.blockHash earlier) ≠ none := by
  obtain ⟨_, accepted⟩ := honest.accepted
  have originValid := valid_withDeployments crate deployments
  obtain ⟨_, rest, rfl⟩ := List.exists_cons_of_length_pos (List.getElem_of_getElem? honest.genesis).1
  have inside : index < rest.length := by
    have := (List.getElem_of_getElem? atNext).1
    simp at this
    omega
  have splitRest : rest = rest.take index ++ header :: rest.drop (index + 1) := by
    have atIndex : rest[index] = header := by
      simpa [getElem?_eq_getElem inside] using atNext
    rw [← atIndex, ← drop_eq_getElem_cons inside, take_append_drop]
  simp only [tail_cons] at accepted
  rw [splitRest, map_append, map_cons, acceptEach, foldOutcome_append, bind_eq_ok] at accepted
  obtain ⟨before, acceptedFront, remaining⟩ := accepted
  simp only [foldOutcome_cons, bind_eq_ok] at remaining
  obtain ⟨_, ⟨result, acceptedHeader, -⟩, -⟩ := remaining
  have gathers := Gathers.acceptEach originValid acceptedFront
  refine ⟨before, result, gathers.valid, gathers.deployments_eq, acceptedHeader, fun earlier member => ?_⟩
  rw [take_succ_cons, mem_cons] at member
  rcases member with rfl | later
  · obtain rfl : earlier = crate.genesisHeader deployments.network := by
      simpa using honest.genesis
    have retained := gathers.extended _ _ originValid.rooted.root
    exact ne_of_eq_of_ne retained (some_ne_none _)
  have offered : earlier ∈ ((rest.take index).map fun header =>
      Arrival.contextual header adjustedTime).map Arrival.header := by
    simpa [Arrival.header, Function.comp_def] using later
  obtain ⟨info, found, -⟩ := gathers.gathered earlier offered
  exact ne_of_eq_of_ne found (some_ne_none info)

theorem chainworkAt_lt (workPositive : ∀ target, target ≠ 0 → 0 < crate.toWork target) (index : Nat)
    (inside : index + 1 < chain.length) : chainworkAt crate chain index < chainworkAt crate chain (index + 1) := by
  have atNext := getElem?_eq_getElem inside
  obtain ⟨_, ⟨_, _⟩, valid, -, accepted, -⟩ := honest.accepted_at atNext
  obtain ⟨sameHeader, ⟨_, acceptable⟩, -⟩ := insert_retains valid (insertContextual_eq_ok.mp accepted).2
  have positive := workPositive _ acceptable.admissible.target_ne_zero
  rw [sameHeader] at positive
  rw [chainworkAt_succ crate atNext]
  omega

theorem chainworkAt_strictMono (workPositive : ∀ target, target ≠ 0 → 0 < crate.toWork target) {low high : Nat}
    (lt : low < high) (inside : high < chain.length) : chainworkAt crate chain low < chainworkAt crate chain high :=
  Nat.lt_of_lt_of_le (honest.chainworkAt_lt workPositive low (by omega)) (chainworkAt_mono lt)

theorem index_eq (collisionFree : CollisionFree crate) {left right : Nat} {other : Header}
    (atLeft : chain[left]? = some header) (atRight : chain[right]? = some other)
    (sameHash : crate.blockHash header = crate.blockHash other) : left = right := by
  have peerKnows : ∃ peer : HeaderDag, peer.Valid crate ∧ peer.deployments = deployments ∧
      ∃ info, peer.headers.lookup (crate.blockHash header) = some info := by
    cases left with
    | zero =>
      have originValid := valid_withDeployments crate deployments
      rw [honest.genesis, some.injEq] at atLeft
      subst atLeft
      exact ⟨_, originValid, rfl, _, originValid.rooted.root⟩
    | succ _ =>
      obtain ⟨_, ⟨next, info⟩, valid, sameDeployments, accepted, -⟩ := honest.accepted_at atLeft
      obtain ⟨rfl, ⟨_, acceptable⟩, retains⟩ := insert_retains valid (insertContextual_eq_ok.mp accepted).2
      refine ⟨next, retains.valid, retains.deployments_eq.trans sameDeployments, info, ?_⟩
      rw [retains.headers_eq, acceptable.hashed, Table.lookup_insert, if_pos rfl]
  obtain ⟨_, valid, sameDeployments, _, found⟩ := peerKnows
  have leftHeight := (honest.known_info collisionFree valid sameDeployments atLeft found).2.1
  rw [sameHash] at found
  have rightHeight := (honest.known_info collisionFree valid sameDeployments atRight found).2.1
  rw [← leftHeight, rightHeight]

end HonestChain

/-- A local DAG on the peer's deployments that knows no checkpoint above a chain header it does not
hold yet. -/
structure LocalDag (crate : HeaderCrate) (deployments : DeploymentConfig) (chain : List Header)
    (dag : HeaderDag) : Prop where
  valid : dag.Valid crate
  deployments_eq : dag.deployments = deployments
  unhindered : ∀ index header, chain[index]? = some header →
    dag.headers.lookup (crate.blockHash header) = none → dag.validateForkHeight index = .ok ()

abbrev segment (chain : List Header) (base count : Nat) : List Header :=
  (chain.drop (base + 1)).take count

variable {base count : Nat} {tip : HeaderInfo}

theorem mem_segment : header ∈ segment chain base count ↔
      ∃ index, base < index ∧ index ≤ base + count ∧ chain[index]? = some header := by
  rw [mem_iff_getElem?]
  constructor
  · rintro ⟨offset, atOffset⟩
    have short : offset < count := by
      by_contra long
      simp [long] at atOffset
    rw [getElem?_take_of_lt short, getElem?_drop] at atOffset
    exact ⟨base + 1 + offset, by omega, by omega, atOffset⟩
  · rintro ⟨index, _, _, atIndex⟩
    refine ⟨index - base - 1, ?_⟩
    rw [getElem?_take_of_lt (by omega), getElem?_drop]
    rw [show base + 1 + (index - base - 1) = index by omega]
    exact atIndex

theorem LocalDag.gathers (honest : HonestChain crate deployments adjustedTime chain)
    (collisionFree : CollisionFree crate) (atHome : LocalDag crate deployments chain dag)
    (gathers : Gathers crate dag (segment chain base count) dag')
    {index : Nat} (beyond : base + count < index) (atIndex : chain[index]? = some header)
    (unknown : dag.headers.lookup (crate.blockHash header) = none) : dag'.validateForkHeight index = .ok () := by
  have sameNetwork : dag'.params = dag.params := atHome.valid.params_eq_of gathers.valid gathers.deployments_eq
  obtain ⟨before, rfl⟩ : ∃ before, index = before + 1 := ⟨index - 1, by omega⟩
  obtain ⟨earlierDag, _, earlierValid, earlierDeployments, accepted, earlierKnown⟩ := honest.accepted_at atIndex
  obtain ⟨previous, atBefore, linked⟩ := honest.linked before header atIndex
  have previousKnown := earlierKnown previous (mem_of_getElem? (i := before) (by
    rw [getElem?_take_of_lt (by omega)]
    exact atBefore))
  obtain ⟨_, parentFound⟩ := ne_none_iff_exists'.mp previousKnown
  have parentHeight := (honest.known_info collisionFree earlierValid earlierDeployments atBefore parentFound).2.1
  have admitted := validateForkHeight_of_accepted accepted (linked ▸ parentFound)
  have earlierNetwork : earlierDag.params = dag.params := by
    rw [earlierValid.params_eq, earlierDeployments, ← atHome.deployments_eq, ← atHome.valid.params_eq]
  rw [parentHeight, validateForkHeight_eq_ok, earlierNetwork] at admitted
  have unhindered := atHome.unhindered (before + 1) header atIndex unknown
  rw [validateForkHeight_eq_ok] at unhindered ⊢
  rw [sameNetwork]
  intro checkpointHeight listed hash pinned retained
  obtain ⟨info, found⟩ := Table.mem_iff.mp retained
  rcases gathers.source hash info found with initial | member
  · exact unhindered checkpointHeight listed hash pinned (Table.mem_of_lookup initial)
  -- A checkpoint on the chain itself is one the peer's own acceptance has already passed.
  obtain ⟨position, -, _, atPosition⟩ := mem_segment.mp member
  refine admitted checkpointHeight listed hash pinned ?_
  obtain ⟨_, otherFound⟩ := ne_none_iff_exists'.mp (earlierKnown info.header (mem_of_getElem? (i := position) (by
      rw [getElem?_take_of_lt (by omega)]
      exact atPosition)))
  rw [(gathers.valid.rooted.keyed _ _ found).2] at otherFound
  exact Table.mem_of_lookup otherFound

/-- A segment is gathered, and the tip moves to its end exactly when that is heavier. -/
structure Extends (crate : HeaderCrate) (chain : List Header) (dag : HeaderDag) (tip : HeaderInfo)
    (base count : Nat) (next : HeaderDag) : Prop where
  gathers : Gathers crate dag (segment chain base count) next
  stays : chainworkAt crate chain (base + count) ≤ tip.chainwork →
    next.activeTip = dag.activeTip ∧ next.activeChain = dag.activeChain
  moves : tip.chainwork < chainworkAt crate chain (base + count) →
    ∃ last, chain[base + count]? = some last ∧ next.activeTip = crate.blockHash last

variable (honest : HonestChain crate deployments adjustedTime chain) (collisionFree : CollisionFree crate)
include honest collisionFree

theorem Extends.activeWork (atHome : LocalDag crate deployments chain dag)
    (tipFound : dag.headers.lookup dag.activeTip = some tip)
    {next : HeaderDag} (extension : Extends crate chain dag tip base count next) :
    ∃ nextTip, next.headers.lookup next.activeTip = some nextTip ∧
      nextTip.chainwork = max tip.chainwork (chainworkAt crate chain (base + count)) := by
  have sameDeployments := extension.gathers.deployments_eq.trans atHome.deployments_eq
  rcases Nat.lt_or_ge tip.chainwork (chainworkAt crate chain (base + count)) with heavier | lighter
  · obtain ⟨_, atLast, isTip⟩ := extension.moves heavier
    obtain ⟨nextTip, found, -⟩ := extension.gathers.valid.tip_retained
    refine ⟨nextTip, found, ?_⟩
    rw [isTip] at found
    rw [(honest.known_info collisionFree extension.gathers.valid sameDeployments atLast found).2.2,
      Nat.max_eq_right (Nat.le_of_lt heavier)]
  · refine ⟨tip, ?_, (Nat.max_eq_left lighter).symm⟩
    rw [(extension.stays lighter).1]
    exact extension.gathers.extended _ _ tipFound

theorem LocalDag.extend (workPositive : ∀ target, target ≠ 0 → 0 < crate.toWork target)
    (atHome : LocalDag crate deployments chain dag)
    (tipFound : dag.headers.lookup dag.activeTip = some tip) (base count : Nat)
    (inside : base + count < chain.length) (known : ∀ header, chain[base]? = some header →
      dag.headers.lookup (crate.blockHash header) ≠ none)
    (unknown : ∀ index header, base < index → index ≤ base + count →
      chain[index]? = some header → dag.headers.lookup (crate.blockHash header) = none) :
    ∃ next infos, dag.insertEachContextual crate (segment chain base count) adjustedTime =
        .ok (next, infos) ∧ Extends crate chain dag tip base count next := by
  induction count with
  | zero =>
    refine ⟨dag, [], by simp [insertEachContextual],
      by simpa [segment] using Gathers.nil atHome.valid, fun _ => ⟨rfl, rfl⟩, fun heavier => ?_⟩
    -- The base is retained, so it is not heavier than the tip.
    have atBase := getElem?_eq_getElem (by omega)
    obtain ⟨info, found⟩ := ne_none_iff_exists'.mp (known _ atBase)
    have work := (honest.known_info collisionFree atHome.valid atHome.deployments_eq atBase found).2.2
    have heaviest := atHome.valid.heaviest _ info tip found tipFound
    rw [work] at heaviest
    exact absurd heavier (Nat.not_lt.mpr heaviest)
  | succ count ih =>
    obtain ⟨current, infos, inserted, extension⟩ := ih (by omega)
      fun index header above below => unknown index header above (by omega)
    have gathers := extension.gathers
    have currentDeployments := gathers.deployments_eq.trans atHome.deployments_eq
    have atNext := getElem?_eq_getElem (i := base + count + 1) (by omega)
    generalize chain[base + count + 1] = header at atNext
    have notKnown := unknown (base + count + 1) header (by omega) (by omega) atNext
    obtain ⟨before, result, beforeValid, beforeDeployments, accepted, -⟩ := honest.accepted_at atNext
    obtain ⟨previous, atPrevious, linked⟩ := honest.linked (base + count) header atNext
    have previousKnown : current.headers.lookup (crate.blockHash previous) ≠ none := by
      cases count with
      | zero =>
        obtain ⟨info, found⟩ := ne_none_iff_exists'.mp (known previous atPrevious)
        rw [gathers.extended _ _ found]
        exact some_ne_none info
      | succ count =>
        obtain ⟨info, found, -⟩ := gathers.gathered previous
          (mem_segment.mpr ⟨base + (count + 1), by omega, Nat.le_refl _, atPrevious⟩)
        rw [found]
        exact some_ne_none info
    obtain ⟨parent, parentFound⟩ := ne_none_iff_exists'.mp previousKnown
    have parentFacts := honest.known_info collisionFree gathers.valid currentDeployments atPrevious parentFound
    have fresh : current.headers.lookup (crate.blockHash header) = none := by
      cases found : current.headers.lookup (crate.blockHash header) with
      | none => rfl
      | some info =>
        rcases gathers.source _ info found with initial | member
        · rw [notKnown] at initial
          cases initial
        obtain ⟨_, -, _, atPosition⟩ := mem_segment.mp member
        have position_eq := honest.index_eq collisionFree atPosition atNext
          (gathers.valid.rooted.keyed _ _ found).2
        omega
    have unhindered : current.validateForkHeight (parent.height + 1) = .ok () := by
      rw [parentFacts.2.1]
      exact atHome.gathers honest collisionFree gathers (by omega) atNext notKnown
    have sameDeployments : current.deployments = before.deployments :=
      currentDeployments.trans beforeDeployments.symm
    obtain ⟨next, insertedNext, retains⟩ := insertContextual_local collisionFree
      beforeValid gathers.valid sameDeployments accepted (linked ▸ parentFound) fresh unhindered
    have segment_succ : segment chain base (count + 1) = segment chain base count ++ [header] := by
      rw [segment, take_add_one, getElem?_drop, show base + 1 + count = base + count + 1 by omega, atNext]
      rfl
    obtain ⟨sameHeader, ⟨_, acceptable⟩, -⟩ := insert_retains gathers.valid
      (insertContextual_eq_ok.mp insertedNext).2
    have nextGathers := gathers.snoc (insertContextual_eq_ok.mp insertedNext).2
    rw [← segment_succ] at nextGathers
    have newWork : result.2.chainwork = chainworkAt crate chain (base + (count + 1)) := by
      have found : next.headers.lookup (crate.blockHash header) = some result.2 := by
        rw [retains.headers_eq, ← sameHeader, acceptable.hashed, Table.lookup_insert, if_pos rfl]
      exact (honest.known_info collisionFree nextGathers.valid
        (nextGathers.deployments_eq.trans atHome.deployments_eq) atNext found).2.2
    have grows := honest.chainworkAt_lt workPositive (base + count) (by omega)
    obtain ⟨currentTip, currentFound, currentWork⟩ := extension.activeWork honest collisionFree atHome tipFound
    refine ⟨next, infos ++ [result.2], ?_, nextGathers, fun lighter => ?_, fun heavier => ?_⟩
    · simp only [insertEachContextual] at inserted
      rw [segment_succ, insertEachContextual, foldOutcome_append, inserted]
      simp [foldOutcome_cons, insertNextContextual, insertedNext]
    · have kept := extension.stays (by rw [← Nat.add_assoc] at lighter; omega)
      have notHeavier := retains.lighter currentTip currentFound (by
        rw [newWork, currentWork]
        exact Nat.le_trans lighter (Nat.le_max_left _ _))
      exact ⟨notHeavier.1.trans kept.1, notHeavier.2.trans kept.2⟩
    · refine ⟨header, atNext, ?_⟩
      rw [(retains.heavier currentTip currentFound (by
        rw [newWork, currentWork, Nat.max_lt]
        exact ⟨heavier, grows⟩)).1, ← sameHeader,
        acceptable.hashed]

end Rbtc.Node
