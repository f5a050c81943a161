import Rbtc.Node.HeaderSync

/-! A peer's branch is adopted only once one of its pages overtakes the local tip. -/

namespace Rbtc.Node

open Foundation Bitcoin Headers HeaderDag List Option

variable {crate : HeaderCrate} {dag : HeaderDag} {deployments : DeploymentConfig}
  {adjustedTime : Nat} {chain : List Header}

def forkHeight (crate : HeaderCrate) (chain : List Header) (locator : List BlockHash) : Nat :=
  (locator.findSome? (activeHeight crate chain)).getD 0

def pageEnd (crate : HeaderCrate) (chain : List Header) (locator : List BlockHash) : Nat :=
  forkHeight crate chain locator + (honestPeer crate chain locator).length

theorem activeHeight_eq_some {hash : BlockHash} {height : Nat} (active : activeHeight crate chain hash = some height) :
    ∃ header, chain[height]? = some header ∧ crate.blockHash header = hash := by
  obtain ⟨inside, same, -⟩ := findIdx?_eq_some_iff_getElem.mp active
  rw [length_map] at inside
  refine ⟨chain[height], getElem?_eq_getElem inside, ?_⟩
  simpa using same

theorem activeHeight_isSome (crate : HeaderCrate) {height : Nat} {header : Header}
    (atHeight : chain[height]? = some header) :
    ∃ first, activeHeight crate chain (crate.blockHash header) = some first := by
  cases active : activeHeight crate chain (crate.blockHash header) with
  | some first => exact ⟨first, rfl⟩
  | none =>
    have absent := findIdx?_eq_none_iff.mp active (crate.blockHash header)
      (mem_map_of_mem (mem_of_getElem? atHeight))
    simp at absent

theorem honestPeer_eq (crate : HeaderCrate) (chain : List Header) (locator : List BlockHash) :
    honestPeer crate chain locator = segment chain (forkHeight crate chain locator) maxHeadersPerResponse := rfl

theorem honestPeer_length (crate : HeaderCrate) (chain : List Header) (locator : List BlockHash) :
    (honestPeer crate chain locator).length =
      min maxHeadersPerResponse (chain.length - (forkHeight crate chain locator + 1)) := by
  rw [honestPeer_eq, length_take, length_drop]

theorem segment_drop (base count skip : Nat) :
    (segment chain base count).drop skip = segment chain (base + skip) (count - skip) := by
  rw [drop_take, drop_drop]
  congr 2
  omega

def Knows (crate : HeaderCrate) (chain : List Header) (dag : HeaderDag) (height : Nat) : Prop :=
  ∀ header, chain[height]? = some header → dag.headers.lookup (crate.blockHash header) ≠ none

theorem Extends.blockLocator_eq (atHome : LocalDag crate deployments chain dag) {tip : HeaderInfo}
    (tipFound : dag.headers.lookup dag.activeTip = some tip) {base count : Nat} {next : HeaderDag}
    (extension : Extends crate chain dag tip base count next)
    (lighter : chainworkAt crate chain (base + count) ≤ tip.chainwork) : blockLocator next = blockLocator dag := by
  obtain ⟨sameTip, sameChain⟩ := extension.stays lighter
  have sameActive : ∀ height, next.activeHeaderAt height = dag.activeHeaderAt height := by
    intro height
    simp only [activeHeaderAt, sameChain]
    cases active : dag.activeChain[height]? with
    | none => rfl
    | some _ =>
      obtain ⟨_, found, -⟩ := atHome.valid.active.entry _ _ active
      simp [found, extension.gathers.extended _ _ found]
  have sameInfo : next.activeTipInfo = dag.activeTipInfo := by
    unfold activeTipInfo
    rw [sameTip, tipFound, extension.gathers.extended _ _ tipFound]
  simp [blockLocator, sameInfo, locatorFrom_congr sameActive]

variable {locator : List BlockHash} {height : Nat}

section
variable (honest : HonestChain crate deployments adjustedTime chain)

section
variable (atHome : LocalDag crate deployments chain dag) (located : blockLocator dag = .ok locator)
include honest atHome located

theorem forkHeight_spec : ∃ header, chain[forkHeight crate chain locator]? = some header ∧
      crate.blockHash header ∈ dag.activeChain := by
  obtain ⟨_, located', -, onChain, reachesGenesis⟩ := blockLocator_spec atHome.valid
  cases located.symm.trans located'
  rw [atHome.deployments_eq] at reachesGenesis
  obtain ⟨_, atGenesis⟩ := activeHeight_isSome crate honest.genesis
  cases shared : locator.findSome? (activeHeight crate chain) with
  | none =>
    have absent := findSome?_eq_none_iff.mp shared _ (mem_of_getLast? reachesGenesis)
    rw [show (genesisInfo crate deployments.network).hash =
      crate.blockHash (crate.genesisHeader deployments.network) from rfl, atGenesis] at absent
    cases absent
  | some _ =>
    obtain ⟨hash, listed, active⟩ := List.exists_of_findSome?_eq_some shared
    obtain ⟨header, atHeight, hashed⟩ := activeHeight_eq_some active
    exact ⟨header, by simp [forkHeight, shared, atHeight], hashed ▸ onChain hash listed⟩

theorem pageEnd_lt : pageEnd crate chain locator < chain.length := by
  obtain ⟨_, atFork, -⟩ := forkHeight_spec honest atHome located
  have inside := (List.getElem_of_getElem? atFork).1
  rw [pageEnd, honestPeer_length]
  omega

theorem knows_forkHeight : Knows crate chain dag (forkHeight crate chain locator) := by
  intro header atFork
  obtain ⟨_, atFork', active⟩ := forkHeight_spec honest atHome located
  obtain rfl := mem_unique atFork atFork'
  obtain ⟨index, inside, atIndex⟩ := getElem_of_mem active
  have onChain : dag.activeChain[index]? = some (crate.blockHash header) := by
    rw [getElem?_eq_getElem inside, atIndex]
  obtain ⟨info, found, -⟩ := atHome.valid.active.entry _ _ onChain
  rw [found]
  exact some_ne_none info

theorem pageEnd_of_short (short : (honestPeer crate chain locator).length < maxHeadersPerResponse) :
    pageEnd crate chain locator = chain.length - 1 := by
  obtain ⟨_, atFork, -⟩ := forkHeight_spec honest atHome located
  have inside := (List.getElem_of_getElem? atFork).1
  rw [honestPeer_length] at short
  rw [pageEnd, honestPeer_length]
  omega

end

variable (collisionFree : CollisionFree crate)
include honest collisionFree

variable {tip : HeaderInfo}

theorem forkHeight_of_tip (atHome : LocalDag crate deployments chain dag)
    (located : blockLocator dag = .ok locator) {header : Header} (atHeight : chain[height]? = some header)
    (isTip : dag.activeTip = crate.blockHash header) : forkHeight crate chain locator = height := by
  obtain ⟨_, located', head, -, -⟩ := blockLocator_spec atHome.valid
  cases located.symm.trans located'
  obtain ⟨_, active⟩ := activeHeight_isSome crate atHeight
  obtain ⟨_, atFirst, hashed⟩ := activeHeight_eq_some active
  obtain ⟨rest, rfl⟩ : ∃ rest, locator = dag.activeTip :: rest := by
    cases locator with
    | nil => cases head
    | cons _ rest => exact ⟨rest, by rw [head?_cons, some.injEq] at head; rw [head]⟩
  rw [forkHeight, findSome?_cons, isTip, active]
  exact honest.index_eq collisionFree atFirst atHeight hashed

theorem Knows.mono (valid : dag.Valid crate) {low high : Nat}
    (le : low ≤ high) (inside : high < chain.length) (knows : Knows crate chain dag high) :
    Knows crate chain dag low := by
  induction high, le using Nat.le_induction with
  | base => exact knows
  | succ _ _ ih =>
    refine ih (by omega) fun header atHigh => ?_
    have atNext := getElem?_eq_getElem inside
    exact honest.known_before collisionFree valid atNext atHigh (knows _ atNext)

theorem Knows.work_le (valid : dag.Valid crate) (sameDeployments : dag.deployments = deployments)
    (inside : height < chain.length) (knows : Knows crate chain dag height)
    (tipFound : dag.headers.lookup dag.activeTip = some tip) : chainworkAt crate chain height ≤ tip.chainwork := by
  have atHeight := getElem?_eq_getElem inside
  obtain ⟨info, found⟩ := ne_none_iff_exists'.mp (knows _ atHeight)
  rw [← (honest.known_info collisionFree valid sameDeployments atHeight found).2.2]
  exact valid.heaviest _ info tip found tipFound

theorem unseenHeaderSuffix_spec (valid : dag.Valid crate) {base count : Nat}
    (inside : base + count < chain.length) (knowsBase : Knows crate chain dag base) : ∃ skip, skip ≤ count ∧
      unseenHeaderSuffix crate dag (segment chain base count) =
        .ok (segment chain (base + skip) (count - skip)) ∧ Knows crate chain dag (base + skip) ∧
      ∀ index header, base + skip < index → index ≤ base + count →
        chain[index]? = some header → dag.headers.lookup (crate.blockHash header) = none := by
  let isUnseen : Header → Bool := fun header =>
    decide (dag.headers.lookup (crate.blockHash header) = none)
  have length : (segment chain base count).length = count := by
    simp [segment]
    omega
  let skip := (segment chain base count).findIdx isUnseen
  have skip_le : skip ≤ count := length ▸ findIdx_le_length
  have atOffset : ∀ offset, offset < count →
      (segment chain base count)[offset]? = chain[base + 1 + offset]? := fun offset short => by
    rw [getElem?_take_of_lt short, getElem?_drop]
  have knowsSkip : Knows crate chain dag (base + skip) := by
    by_cases none : skip = 0
    · rw [none]
      exact knowsBase
    intro header atHeader
    have before : skip - 1 < (segment chain base count).findIdx isUnseen := by omega
    have seen := not_of_lt_findIdx before
    have entry := atOffset (skip - 1) (by omega)
    rw [show base + 1 + (skip - 1) = base + skip by omega, atHeader,
      getElem?_eq_getElem (by omega), some.injEq] at entry
    rw [entry] at seen
    simpa [isUnseen] using seen
  have unknown : ∀ index header, base + skip < index → index ≤ base + count →
      chain[index]? = some header → dag.headers.lookup (crate.blockHash header) = none := by
    intro index header above below atIndex
    by_contra known
    have skipped : skip < (segment chain base count).length := by omega
    have first := findIdx_getElem (w := skipped)
    have entry := atOffset skip (by omega)
    rw [getElem?_eq_getElem skipped] at entry
    have inChain := (List.getElem_of_getElem? atIndex).1
    have lower : Knows crate chain dag (base + 1 + skip) :=
      Knows.mono honest collisionFree valid (show base + 1 + skip ≤ index by omega) inChain
        fun other atOther => by
          rw [← mem_unique atIndex atOther]
          exact known
    exact lower _ entry.symm (of_decide_eq_true first)
  refine ⟨skip, skip_le, ?_, knowsSkip, unknown⟩
  have noDuplicate : ((segment chain base count).drop skip).find? (fun header =>
      dag.headers.lookup (crate.blockHash header) ≠ none) = none := by
    rw [find?_eq_none]
    intro header member
    rw [segment_drop] at member
    obtain ⟨index, above, _, atIndex⟩ := mem_segment.mp member
    simpa using unknown index header above (by omega) atIndex
  rw [unseenHeaderSuffix, ← segment_drop]
  simp only [show (segment chain base count).findIdx (fun header =>
    decide (dag.headers.lookup (crate.blockHash header) = none)) = skip from rfl, noDuplicate]

variable (workPositive : ∀ target, target ≠ 0 → 0 < crate.toWork target)
include workPositive

variable (atHome : LocalDag crate deployments chain dag)
include atHome

/-- One round: the page is known and the loop ends, or its end is retained and a full page continues it. -/
theorem syncRound (tipFound : dag.headers.lookup dag.activeTip = some tip)
    (located : blockLocator dag = .ok locator) : (Knows crate chain dag (pageEnd crate chain locator) ∧ ∀ rounds,
      syncHeaders crate (honestPeer crate chain) adjustedTime (rounds + 1) dag = .finished dag) ∨
    ∃ base count next, ¬ Knows crate chain dag (pageEnd crate chain locator) ∧
      base + count = pageEnd crate chain locator ∧ Extends crate chain dag tip base count next ∧
      LocalDag crate deployments chain next ∧ Knows crate chain next (pageEnd crate chain locator) ∧ ∀ rounds,
        syncHeaders crate (honestPeer crate chain) adjustedTime (rounds + 1) dag =
          if (honestPeer crate chain locator).length < maxHeadersPerResponse then .finished next
          else syncHeaders crate (honestPeer crate chain) adjustedTime rounds next := by
  have inside := pageEnd_lt honest atHome located
  have knowsFork := knows_forkHeight honest atHome located
  have page : honestPeer crate chain locator = segment chain (forkHeight crate chain locator)
      (honestPeer crate chain locator).length := by
    rw [honestPeer_eq, length_take]
    exact take_eq_take_min
  rw [pageEnd] at inside ⊢
  generalize forkHeight crate chain locator = fork at *
  generalize length : (honestPeer crate chain locator).length = count at *
  by_cases empty : count = 0
  · subst empty
    refine .inl ⟨knowsFork, fun rounds => ?_⟩
    simp [syncHeaders, located, length]
  obtain ⟨skip, _, unseen, knowsSkip, unknown⟩ :=
    unseenHeaderSuffix_spec honest collisionFree atHome.valid inside knowsFork
  rw [← page] at unseen
  by_cases allSeen : skip = count
  · subst allSeen
    refine .inl ⟨knowsSkip, fun rounds => ?_⟩
    simp [syncHeaders, located, unseen]
  right
  have whole : fork + skip + (count - skip) = fork + count := by omega
  obtain ⟨next, _, accepted, extension⟩ := atHome.extend honest collisionFree workPositive
    tipFound (fork + skip) (count - skip) (by omega) knowsSkip
    fun index header above below => unknown index header above (by omega)
  obtain ⟨_, staged, committed⟩ := atHome.valid.stageBatchContextual_of_accepted accepted
  have knowsEnd : Knows crate chain next (fork + count) := by
    intro header atEnd
    obtain ⟨info, found, -⟩ := extension.gathers.gathered header
      (mem_segment.mpr ⟨fork + count, by omega, by omega, atEnd⟩)
    rw [found]
    exact some_ne_none info
  have atEnd := getElem?_eq_getElem inside
  refine ⟨fork + skip, count - skip, next, fun knows => knows _ atEnd
    (unknown _ _ (by omega) (Nat.le_refl _) atEnd), whole, extension, ⟨extension.gathers.valid,
    extension.gathers.deployments_eq.trans atHome.deployments_eq, ?_⟩, knowsEnd, fun rounds => ?_⟩
  · intro index header atIndex notRetained
    refine atHome.gathers honest collisionFree extension.gathers ?_ atIndex ?_
    · by_contra within
      exact Knows.mono honest collisionFree extension.gathers.valid
        (show index ≤ fork + count by omega) inside knowsEnd header atIndex notRetained
    cases found : dag.headers.lookup (crate.blockHash header) with
    | none => rfl
    | some _ =>
      rw [extension.gathers.extended _ _ found] at notRetained
      cases notRetained
  · have nonempty : (segment chain (fork + skip) (count - skip)).isEmpty = false := by
      simp [segment]
      omega
    simp [syncHeaders, located, length, empty, unseen, nonempty, staged, committed]

theorem LocalDag.adopts {remaining : Nat} {header : Header}
    (atHeight : chain[height]? = some header) (isTip : dag.activeTip = crate.blockHash header)
    (left : chain.length - 1 - height ≤ remaining) : ∃ final, LocalDag crate deployments chain final ∧
      Knows crate chain final (chain.length - 1) ∧ ∀ rounds, remaining < rounds →
        syncHeaders crate (honestPeer crate chain) adjustedTime rounds dag = .finished final := by
  induction remaining generalizing dag height header with
  | zero =>
    have inside := (List.getElem_of_getElem? atHeight).1
    obtain ⟨locator, located, -⟩ := blockLocator_spec atHome.valid
    have fork := forkHeight_of_tip honest collisionFree atHome located atHeight isTip
    have empty : honestPeer crate chain locator = [] := by
      rw [honestPeer_eq, segment, drop_of_length_le (by omega), take_nil]
    refine ⟨dag, atHome, ?_, fun rounds enough => ?_⟩
    · rw [show chain.length - 1 = height by omega, ← fork]
      exact knows_forkHeight honest atHome located
    · obtain ⟨rounds, rfl⟩ : ∃ earlier, rounds = earlier + 1 := ⟨rounds - 1, by omega⟩
      simp [syncHeaders, located, empty]
  | succ _ ih =>
    obtain ⟨locator, located, -⟩ := blockLocator_spec atHome.valid
    obtain ⟨tip, tipFound, -⟩ := atHome.valid.tip_retained
    have tipKnown := tipFound
    rw [isTip] at tipKnown
    have tipWork := (honest.known_info collisionFree atHome.valid atHome.deployments_eq atHeight tipKnown).2.2
    have fork := forkHeight_of_tip honest collisionFree atHome located atHeight isTip
    have beforeEnd := pageEnd_lt honest atHome located
    rcases syncRound honest collisionFree workPositive atHome tipFound located with
      ⟨knowsEnd, ends⟩ | ⟨base, count, next, -, whole, extension, nextHome, knowsEnd, continues⟩
    · -- A known page end is not heavier than the tip, so the page is empty.
      have light := knowsEnd.work_le honest collisionFree atHome.valid atHome.deployments_eq beforeEnd tipFound
      have atEnd : pageEnd crate chain locator = height := by
        by_contra further
        have later : height < pageEnd crate chain locator := by
          rw [pageEnd] at further ⊢
          omega
        have heavier := honest.chainworkAt_strictMono workPositive later beforeEnd
        omega
      have short : (honestPeer crate chain locator).length < maxHeadersPerResponse := by
        rw [pageEnd] at atEnd
        rw [maxHeadersPerResponse]
        omega
      refine ⟨dag, atHome, pageEnd_of_short honest atHome located short ▸ knowsEnd, fun rounds enough => ?_⟩
      obtain ⟨rounds, rfl⟩ : ∃ earlier, rounds = earlier + 1 := ⟨rounds - 1, by omega⟩
      exact ends rounds
    · by_cases short : (honestPeer crate chain locator).length < maxHeadersPerResponse
      · refine ⟨next, nextHome, pageEnd_of_short honest atHome located short ▸ knowsEnd, fun rounds enough => ?_⟩
        obtain ⟨rounds, rfl⟩ : ∃ earlier, rounds = earlier + 1 := ⟨rounds - 1, by omega⟩
        rw [continues rounds, if_pos short]
      have later : height < pageEnd crate chain locator := by
        rw [pageEnd]
        rw [maxHeadersPerResponse] at short
        omega
      have heavier := honest.chainworkAt_strictMono workPositive later beforeEnd
      obtain ⟨_, atLast, lastIsTip⟩ := extension.moves (by rw [tipWork, whole]; exact heavier)
      obtain ⟨final, finalHome, knowsFinal, ends⟩ := ih nextHome atLast lastIsTip (by omega)
      refine ⟨final, finalHome, knowsFinal, fun rounds enough => ?_⟩
      obtain ⟨rounds, rfl⟩ : ∃ earlier, rounds = earlier + 1 := ⟨rounds - 1, by omega⟩
      rw [continues rounds, if_neg short]
      exact ends rounds (by omega)

/-- The loop ends, and its tip is as heavy as the peer's exactly when that is so at first or the
first page overtakes. -/
theorem LocalDag.syncHeaders_iff (tipFound : dag.headers.lookup dag.activeTip = some tip)
    (located : blockLocator dag = .ok locator) : ∃ final finalTip, (∀ rounds, chain.length + 2 ≤ rounds →
        syncHeaders crate (honestPeer crate chain) adjustedTime rounds dag = .finished final) ∧
      final.headers.lookup final.activeTip = some finalTip ∧
      (chainworkAt crate chain (chain.length - 1) ≤ finalTip.chainwork ↔
        chainworkAt crate chain (chain.length - 1) ≤ tip.chainwork ∨
          tip.chainwork < chainworkAt crate chain (pageEnd crate chain locator)) := by
  have beforeEnd := pageEnd_lt honest atHome located
  have twoRounds : ∀ rounds, chain.length + 2 ≤ rounds → ∃ earlier, rounds = earlier + 2 ∧
      chain.length ≤ earlier := fun rounds enough => ⟨rounds - 2, by omega, by omega⟩
  rcases syncRound honest collisionFree workPositive atHome tipFound located with
    ⟨knowsEnd, ends⟩ | ⟨base, count, next, -, whole, extension, nextHome, knowsEnd, continues⟩
  · have light := knowsEnd.work_le honest collisionFree atHome.valid atHome.deployments_eq beforeEnd tipFound
    refine ⟨dag, tip, fun rounds enough => ?_, tipFound, by omega⟩
    obtain ⟨earlier, rfl, -⟩ := twoRounds rounds enough
    exact ends (earlier + 1)
  obtain ⟨nextTip, nextFound, nextWork⟩ := extension.activeWork honest collisionFree atHome tipFound
  rw [whole] at nextWork
  by_cases short : (honestPeer crate chain locator).length < maxHeadersPerResponse
  · refine ⟨next, nextTip, fun rounds enough => ?_, nextFound, ?_⟩
    · obtain ⟨earlier, rfl, -⟩ := twoRounds rounds enough
      rw [continues, if_pos short]
    · rw [nextWork, pageEnd_of_short honest atHome located short]
      omega
  rcases Nat.lt_or_ge tip.chainwork (chainworkAt crate chain (pageEnd crate chain locator)) with
    overtakes | lighter
  · obtain ⟨_, atLast, isTip⟩ := extension.moves (whole ▸ overtakes)
    obtain ⟨final, finalHome, knowsFinal, ends⟩ := nextHome.adopts honest collisionFree
      workPositive atLast isTip (Nat.le_refl _)
    obtain ⟨finalTip, finalFound, -⟩ := finalHome.valid.tip_retained
    refine ⟨final, finalTip, fun rounds enough => ?_, finalFound, ?_⟩
    · obtain ⟨earlier, rfl, enough⟩ := twoRounds rounds enough
      rw [continues, if_neg short]
      exact ends _ (by omega)
    · have reached := knowsFinal.work_le honest collisionFree finalHome.valid
        finalHome.deployments_eq (by omega) finalFound
      exact ⟨fun _ => .inr overtakes, fun _ => reached⟩
  · -- The tip did not move: the next locator, and so the next page, are the same.
    have located' := (extension.blockLocator_eq atHome tipFound (whole ▸ lighter)).trans located
    refine ⟨next, nextTip, fun rounds enough => ?_, nextFound, by omega⟩
    obtain ⟨earlier, rfl, -⟩ := twoRounds rounds enough
    rw [continues, if_neg short]
    rcases syncRound honest collisionFree workPositive nextHome nextFound located' with
      ⟨-, ends⟩ | ⟨_, _, _, notKnown, -⟩
    · exact ends earlier
    · exact absurd knowsEnd notKnown

end

open Headers.Fixture

variable {side count : Nat}

theorem chainworkAt_fixture (inside : height ≤ count) :
    chainworkAt Fixture.crate (Fixture.chain side count) height = height + 1 := by
  have ones : ((Fixture.chain side count).take (height + 1)).map (fun header =>
      Fixture.crate.toWork (Fixture.crate.target header)) = replicate (height + 1) 1 := by
    change map (fun _ => 1) _ = _
    rw [map_const', length_take, chain_length, Nat.min_eq_left (by omega)]
  rw [chainworkAt, ones]
  simp

theorem honestChain_fixture (side count adjustedTime : Nat) (isSide : side < 2)
    (small : count ≤ 2 ^ 16) (soon : count ≤ adjustedTime) :
    HonestChain Fixture.crate Fixture.deployments adjustedTime (Fixture.chain side count) := by
  obtain ⟨peerDag, accepted, -⟩ := grow side adjustedTime isSide count small soon
  refine ⟨rfl, fun index header atNext => ?_, ⟨peerDag, accepted⟩, ?_⟩
  · have inside := (List.getElem_of_getElem? atNext).1
    rw [chain_length] at inside
    rw [chain_getElem? (by omega), some.injEq] at atNext
    refine ⟨_, chain_getElem? (by omega), ?_⟩
    rw [← atNext]
    exact prevBlockhash_header isSide
  · rw [chain_length, chainworkAt_fixture (by omega)]
    omega

theorem unhindered_fixture {dag : HeaderDag} (grown : Grown side height dag)
    (index : Nat) : dag.validateForkHeight index = .ok () := by
  rw [validateForkHeight_eq_ok, grown.gathers.valid.params_eq, grown.gathers.deployments_eq]
  intro checkpointHeight listed
  cases listed

theorem localDag_fixture {dag : HeaderDag} (grown : Grown side height dag)
    (chain : List Header) : LocalDag Fixture.crate Fixture.deployments chain dag :=
  ⟨grown.gathers.valid, grown.gathers.deployments_eq, fun index _ _ _ =>
    unhindered_fixture grown index⟩

theorem forkHeight_fixture {dag : HeaderDag} (grown : Grown 0 height dag)
    (small : count ≤ 2 ^ 16) {locator : List BlockHash} (located : blockLocator dag = .ok locator) :
    forkHeight Fixture.crate (Fixture.chain 1 count) locator = 0 := by
  have honest := honestChain_fixture 1 count count (by omega) small (Nat.le_refl count)
  obtain ⟨_, atFork, active⟩ := forkHeight_spec honest (localDag_fixture grown _) located
  have inside := (List.getElem_of_getElem? atFork).1
  rw [chain_length] at inside
  rw [chain_getElem? (by omega), some.injEq] at atFork
  obtain ⟨_, atIndex⟩ := mem_iff_getElem?.mp active
  obtain ⟨_, found, -⟩ := grown.gathers.valid.active.entry _ _ atIndex
  obtain ⟨below, -, same⟩ := grown.retained found
  have keyed := (grown.gathers.valid.rooted.keyed _ _ found).2
  rw [same, ← atFork] at keyed
  have sameNonce := congrArg Header.nonce (Fixture.collisionFree.injective keyed)
  change nonceAt 0 below = nonceAt 1 _ at sameNonce
  unfold nonceAt at sameNonce
  split at sameNonce <;> split at sameNonce <;> omega

/-- The loop ends, at a tip as heavy as an honest peer's exactly when it was before or the first
page overtakes it. -/
theorem syncHeaders_adopts_iff (crate : HeaderCrate) (collisionFree : CollisionFree crate)
    (workPositive : ∀ target, target ≠ 0 → 0 < crate.toWork target)
    (deployments : DeploymentConfig) (operations : List DagOperation) (dag : HeaderDag)
    (reached : (withDeployments crate deployments).run crate operations = .ok dag)
    (adjustedTime : Nat) (chain : List Header) (honest : HonestChain crate deployments adjustedTime chain)
    (noConflict : ∀ index header, chain[index]? = some header →
      dag.headers.lookup (crate.blockHash header) = none → dag.validateForkHeight index = .ok ()) :
    ∃ tip locator final finalTip, dag.headers.lookup dag.activeTip = some tip ∧
      blockLocator dag = .ok locator ∧ (∀ rounds, chain.length + 2 ≤ rounds →
        syncHeaders crate (honestPeer crate chain) adjustedTime rounds dag = .finished final) ∧
      final.headers.lookup final.activeTip = some finalTip ∧
      (chainworkAt crate chain (chain.length - 1) ≤ finalTip.chainwork ↔
        chainworkAt crate chain (chain.length - 1) ≤ tip.chainwork ∨
          tip.chainwork < chainworkAt crate chain (pageEnd crate chain locator)) := by
  obtain ⟨_, ran, valid, sameDeployments⟩ := run_valid (valid_withDeployments crate deployments) operations
  cases reached.symm.trans ran
  have atHome : LocalDag crate deployments chain dag := ⟨valid, sameDeployments, noConflict⟩
  obtain ⟨tip, tipFound, -⟩ := valid.tip_retained
  obtain ⟨locator, located, -⟩ := blockLocator_spec valid
  obtain ⟨final, finalTip, finishes, finalFound, adopts⟩ :=
    atHome.syncHeaders_iff honest collisionFree workPositive tipFound located
  exact ⟨tip, locator, final, finalTip, tipFound, located, finishes, finalFound, adopts⟩

/-- A local fork of one header is given up for a peer's fork of two. -/
theorem syncHeaders_adopts_longer_fork : ∃ dag final finalTip,
    origin.run Fixture.crate ((arrivals 0 1 10).map Arrival.operation) = .ok dag ∧
      (∀ rounds, 5 ≤ rounds → syncHeaders Fixture.crate
        (honestPeer Fixture.crate (Fixture.chain 1 2)) 10 rounds dag = .finished final) ∧
      final.headers.lookup final.activeTip = some finalTip ∧
      chainworkAt Fixture.crate (Fixture.chain 1 2) 2 ≤ finalTip.chainwork := by
  obtain ⟨dag, accepted, grown⟩ := grow 0 10 (by omega) 1 (by omega) (by omega)
  have reached := run_of_acceptEach accepted
  obtain ⟨tip, locator, final, finalTip, tipFound, located, finishes, finalFound, adopts⟩ :=
    syncHeaders_adopts_iff Fixture.crate Fixture.collisionFree Fixture.workPositive
      Fixture.deployments _ dag reached 10 (Fixture.chain 1 2)
      (honestChain_fixture 1 2 10 (by omega) (by omega) (by omega))
      (fun index _ _ _ => unhindered_fixture grown index)
  obtain rfl := mem_unique tipFound (grown.tip ▸ grown.tip_found)
  have page : pageEnd Fixture.crate (Fixture.chain 1 2) locator = 2 := by
    rw [pageEnd, honestPeer_length, forkHeight_fixture grown (by omega) located]
    rfl
  rw [page] at adopts
  refine ⟨dag, final, finalTip, reached, finishes, finalFound, adopts.mpr (.inr ?_)⟩
  show 1 + 1 < 2 + 1
  omega

/-- A local branch of 2,001 headers keeps the node from adopting a peer's branch of 2,002. -/
theorem syncHeaders_stalls_below_peer : ∃ dag final finalTip,
    origin.run Fixture.crate ((arrivals 0 2001 5000).map Arrival.operation) = .ok dag ∧
      HonestChain Fixture.crate Fixture.deployments 5000 (Fixture.chain 1 2002) ∧
      (∀ index, dag.validateForkHeight index = .ok ()) ∧ (∀ rounds, 2005 ≤ rounds → syncHeaders Fixture.crate
        (honestPeer Fixture.crate (Fixture.chain 1 2002)) 5000 rounds dag = .finished final) ∧
      final.headers.lookup final.activeTip = some finalTip ∧
      finalTip.chainwork < chainworkAt Fixture.crate (Fixture.chain 1 2002) 2002 := by
  obtain ⟨dag, accepted, grown⟩ := grow 0 5000 (by omega) 2001 (by omega) (by omega)
  have honest := honestChain_fixture 1 2002 5000 (by omega) (by omega) (by omega)
  have atHome := localDag_fixture grown (Fixture.chain 1 2002)
  obtain ⟨locator, located, -⟩ := blockLocator_spec grown.gathers.valid
  obtain ⟨final, finalTip, finishes, finalFound, adopts⟩ := atHome.syncHeaders_iff honest
    Fixture.collisionFree Fixture.workPositive (grown.tip ▸ grown.tip_found) located
  have page : pageEnd Fixture.crate (Fixture.chain 1 2002) locator = 2000 := by
    rw [pageEnd, honestPeer_length, forkHeight_fixture grown (by omega) located, chain_length]
    rfl
  rw [chain_length] at finishes
  rw [page, chain_length, chainworkAt_fixture (by omega), chainworkAt_fixture (by omega)] at adopts
  refine ⟨dag, final, finalTip, run_of_acceptEach accepted, honest, fun index => ?_, finishes, finalFound, ?_⟩
  · exact unhindered_fixture grown index
  · rw [chainworkAt_fixture (by omega)]
    have behind := mt adopts.mp (show ¬(2002 + 1 ≤ 2001 + 1 ∨ 2001 + 1 < 2000 + 1) by omega)
    omega

end Rbtc.Node
