import Rbtc.Foundation.Lineage
import Rbtc.Headers.Dag

/-! The header DAG invariant and its preservation by insertion. -/

namespace Rbtc.Headers

open Foundation Bitcoin HeaderDag Table Option

/-- What an inserted header satisfies over its parent. -/
structure Admissible (crate : HeaderCrate) (params : Params) (parent info : HeaderInfo) : Prop where
  height_eq : info.height = parent.height + 1
  fits : info.height < 2 ^ 32
  checkpoint : ∀ expected, checkpointHash params.network info.height = some expected → info.hash = expected
  target_ne_zero : crate.target info.header ≠ 0
  target_le : crate.target info.header ≤ params.maxAttainableTarget
  pow : info.hash.value ≤ crate.target info.header
  chainwork_eq : info.chainwork = addWork parent.chainwork (crate.toWork (crate.target info.header))

/-- A table of retained headers: keyed by hash, holding genesis, and closed under parents. -/
structure Rooted (crate : HeaderCrate) (params : Params) (genesis : HeaderInfo)
    (headers : Table BlockHash HeaderInfo) : Prop where
  keyed : ∀ hash info, headers.lookup hash = some info → info.hash = hash ∧ crate.blockHash info.header = hash
  root : headers.lookup genesis.hash = some genesis
  root_height : genesis.height = 0
  linked : ∀ hash info, headers.lookup hash = some info → hash ≠ genesis.hash →
    ∃ parent, headers.lookup info.header.prevBlockhash = some parent ∧ Admissible crate params parent info

def ChildOf (headers : Table BlockHash HeaderInfo) (parent child : BlockHash) : Prop :=
  ∃ info, headers.lookup child = some info ∧ 0 < info.height ∧ info.header.prevBlockhash = parent

abbrev Ancestry (headers : Table BlockHash HeaderInfo) (path : List BlockHash) : Prop :=
  Lineage (fun hash => headers.lookup hash) (fun info => info.header.prevBlockhash) HeaderInfo.height path

variable {crate : HeaderCrate} {headers : Table BlockHash HeaderInfo} {info : HeaderInfo}

namespace Rooted

variable {params : Params} {genesis : HeaderInfo} {hash : BlockHash}
  (rooted : Rooted crate params genesis headers)
include rooted

section
variable (found : headers.lookup hash = some info)
include found

theorem height_pos (above : hash ≠ genesis.hash) : 0 < info.height := by
  obtain ⟨_, -, admissible⟩ := rooted.linked hash info found above
  rw [admissible.height_eq]
  exact Nat.succ_pos _

theorem eq_genesis_of_height (lowest : info.height = 0) : hash = genesis.hash := by
  by_contra above
  exact absurd lowest (Nat.pos_iff_ne_zero.mp (rooted.height_pos found above))

theorem parent_of_pos (above : 0 < info.height) :
    ∃ parent, headers.lookup info.header.prevBlockhash = some parent ∧ Admissible crate params parent info := by
  refine rooted.linked hash info found fun isGenesis => ?_
  rw [isGenesis, rooted.root, some.injEq] at found
  rw [← found, rooted.root_height] at above
  exact absurd above (Nat.lt_irrefl 0)

end

theorem insert {parent : HeaderInfo}
    (fresh : headers.lookup info.hash = none) (hashed : crate.blockHash info.header = info.hash)
    (parentFound : headers.lookup info.header.prevBlockhash = some parent)
    (admissible : Admissible crate params parent info) :
    Rooted crate params genesis (headers.insert info.hash info) := by
  have stays : ∀ hash found, headers.lookup hash = some found →
      (headers.insert info.hash info).lookup hash = some found := by
    intro hash found known
    rw [lookup_insert, if_neg, known]
    intro same
    rw [same, fresh] at known
    cases known
  refine ⟨fun hash found known => ?_, stays _ _ rooted.root, rooted.root_height, fun hash found known above => ?_⟩
  · rw [lookup_insert] at known
    split at known
    · next same =>
      cases known
      exact ⟨same.symm, same ▸ hashed⟩
    · exact rooted.keyed hash found known
  · rw [lookup_insert] at known
    split at known
    · cases known
      exact ⟨parent, stays _ _ parentFound, admissible⟩
    · obtain ⟨ancestor, ancestorFound, rest⟩ := rooted.linked hash found known above
      exact ⟨ancestor, stays _ _ ancestorFound, rest⟩

theorem erase (above : hash ≠ genesis.hash)
    (leaf : ∀ child, ¬ ChildOf headers hash child) : Rooted crate params genesis (headers.erase hash) := by
  refine ⟨fun other info known => rooted.keyed other info (lookup_of_erase known), ?_, rooted.root_height,
    fun other info known otherAbove => ?_⟩
  · rw [lookup_erase, if_neg above.symm]
    exact rooted.root
  have kept := lookup_of_erase known
  obtain ⟨parent, parentFound, rest⟩ := rooted.linked other info kept otherAbove
  refine ⟨parent, ?_, rest⟩
  rw [lookup_erase, if_neg, parentFound]
  exact fun isChild => leaf other ⟨info, kept, rooted.height_pos kept otherAbove, isChild⟩

/-- Rooted tables with the same headers under their common hashes hold the same metadata there. -/
theorem info_eq {params' : Params} {headers' : Table BlockHash HeaderInfo}
    (rooted' : Rooted crate params' genesis headers') (sameHeader : ∀ hash info info', headers.lookup hash = some info →
      headers'.lookup hash = some info' → info.header = info'.header)
    {info' : HeaderInfo} (found : headers.lookup hash = some info)
    (found' : headers'.lookup hash = some info') : info = info' := by
  induction height : info.height using Nat.strong_induction_on generalizing hash info info' with
  | _ bound ih =>
    by_cases isGenesis : hash = genesis.hash
    · rw [isGenesis, rooted.root, some.injEq] at found
      rw [isGenesis, rooted'.root, some.injEq] at found'
      rw [← found, ← found']
    obtain ⟨parent, parentFound, admissible⟩ := rooted.linked hash info found isGenesis
    obtain ⟨_, parentFound', admissible'⟩ := rooted'.linked hash info' found' isGenesis
    have same := sameHeader hash info info' found found'
    have lower : parent.height < bound := by
      rw [← height, admissible.height_eq]
      exact Nat.lt_succ_self _
    rw [← same] at parentFound'
    obtain rfl := ih parent.height lower parentFound parentFound' rfl
    have sameHash : info.hash = info'.hash := (rooted.keyed _ _ found).1.trans (rooted'.keyed _ _ found').1.symm
    have sameHeight : info.height = info'.height := admissible.height_eq.trans admissible'.height_eq.symm
    have sameWork : info.chainwork = info'.chainwork := by
      rw [admissible.chainwork_eq, admissible'.chainwork_eq, same]
    cases info
    simp_all only

end Rooted

theorem childCount_insert (fresh : headers.lookup info.hash = none) (above : 0 < info.height)
    (parent : BlockHash) : childCount (headers.insert info.hash info) parent = childCount headers parent +
        if parent = info.header.prevBlockhash then 1 else 0 := by
  unfold childCount
  rw [total_insert _ fresh, Nat.add_comm]
  simp [above, eq_comm]

theorem childCount_erase {hash : BlockHash} (found : headers.lookup hash = some info)
    (above : 0 < info.height) (parent : BlockHash) : childCount headers parent =
      childCount (headers.erase hash) parent + if parent = info.header.prevBlockhash then 1 else 0 := by
  unfold childCount
  rw [← total_erase _ found, Nat.add_comm]
  simp [above, eq_comm]

theorem childCount_eq_zero {parent : BlockHash} :
    childCount headers parent = 0 ↔ ∀ child, ¬ ChildOf headers parent child := by
  rw [childCount, total_eq_zero]
  simp [ChildOf]

theorem buildChildCounts_tallies (headers : Table BlockHash HeaderInfo) :
    (buildChildCounts headers).Tallies (childCount headers) := by
  have counted := tallies_foldl (fun entry => entry.2.header.prevBlockhash)
    (headers.entries.filter fun entry => 0 < entry.2.height) tallies_empty
  intro parent
  rw [buildChildCounts, counted parent]
  have sameCount : 0 + ((headers.entries.filter fun entry => 0 < entry.2.height).map fun entry =>
      if entry.2.header.prevBlockhash = parent then 1 else 0).sum = childCount headers parent := by
    rw [Nat.zero_add, childCount, total]
    generalize headers.entries = entries
    induction entries using Multiset.induction with
    | empty => rfl
    | cons entry _ ih => by_cases above : 0 < entry.2.height <;> simp [above, ih]
  simp [sameCount]

/-- The invariant of every DAG that operations reach. -/
structure HeaderDag.Valid (crate : HeaderCrate) (dag : HeaderDag) : Prop where
  params_eq : dag.params = coreParams crate dag.deployments.network
  rooted : Rooted crate dag.params (genesisInfo crate dag.deployments.network) dag.headers
  active : Ancestry dag.headers dag.activeChain
  tip : dag.activeChain.getLast? = some dag.activeTip
  heaviest : ∀ hash info tip, dag.headers.lookup hash = some info →
    dag.headers.lookup dag.activeTip = some tip → info.chainwork ≤ tip.chainwork
  counted : ∀ counts, dag.childCounts = some counts → counts.Tallies (childCount dag.headers)

namespace HeaderDag

variable {dag : HeaderDag}

theorem valid_withDeployments (crate : HeaderCrate) (deployments : DeploymentConfig) :
    (withDeployments crate deployments).Valid crate := by
  have only : ∀ hash info, (withDeployments crate deployments).headers.lookup hash = some info →
      hash = (genesisInfo crate deployments.network).hash ∧ info = genesisInfo crate deployments.network := by
    intro hash info found
    simp only [withDeployments, lookup_singleton] at found
    split at found
    · next same => exact ⟨same, (some.inj found).symm⟩
    · cases found
  have holdsGenesis : (withDeployments crate deployments).headers.lookup
      (genesisInfo crate deployments.network).hash = some (genesisInfo crate deployments.network) := by
    simp [withDeployments]
  refine ⟨rfl, ⟨fun hash info found => ?_, holdsGenesis, rfl, fun hash info found above => ?_⟩,
    ?_, rfl, fun hash info tip found tipFound => ?_, nofun⟩
  · obtain ⟨rfl, rfl⟩ := only hash info found
    exact ⟨rfl, rfl⟩
  · exact absurd (only hash info found).1 above
  · refine Lineage.snoc Lineage.nil holdsGenesis rfl fun before step => ?_
    simp at step
  · rw [(only hash info found).2, (only _ tip tipFound).2]

namespace Valid

variable (valid : dag.Valid crate)
include valid

theorem tip_mem : dag.activeChain[dag.activeChain.length - 1]? = some dag.activeTip := by
  rw [← List.getLast?_eq_getElem?]
  exact valid.tip

theorem tip_retained : ∃ tip, dag.headers.lookup dag.activeTip = some tip ∧
      dag.activeChain.length = tip.height + 1 := by
  obtain ⟨tip, found, _, -⟩ := valid.active.entry _ _ valid.tip_mem
  have nonempty := (List.getElem_of_getElem? valid.tip_mem).1
  exact ⟨tip, found, by omega⟩

theorem activeTipInfo_eq : ∃ tip, dag.activeTipInfo = .ok tip ∧ dag.headers.lookup dag.activeTip = some tip := by
  obtain ⟨tip, found, -⟩ := valid.tip_retained
  exact ⟨tip, by simp [activeTipInfo, found], found⟩

theorem genesis_active : dag.activeChain[0]? = some (genesisInfo crate dag.deployments.network).hash := by
  have nonempty := (List.getElem_of_getElem? valid.tip_mem).1
  have first := List.getElem?_eq_getElem (l := dag.activeChain) (i := 0) (by omega)
  obtain ⟨_, found, lowest, -⟩ := valid.active.entry 0 _ first
  rw [first, valid.rooted.eq_genesis_of_height found lowest]

end Valid

theorem validateCheckpoint_eq_ok {network : Network} {height : Nat} {hash : BlockHash} {done : Unit} :
    validateCheckpoint network height hash = .ok done ↔
      ∀ expected, checkpointHash network height = some expected → hash = expected := by
  unfold validateCheckpoint
  cases checkpointHash network height <;> simp

variable {header : Header} {adjustedTime : Nat}

theorem validatePow_target_eq_ok {done : Unit} : validatePow crate header (crate.target header) = .ok done ↔
      (crate.blockHash header).value ≤ crate.target header := by
  simp [validatePow]

theorem structuralInfo_eq_ok : dag.structuralInfo crate header = .ok info ↔
      info.header = header ∧ info.hash = crate.blockHash header ∧ dag.headers.lookup info.hash = none ∧
        ∃ parent, dag.headers.lookup header.prevBlockhash = some parent ∧ Admissible crate dag.params parent info := by
  simp only [structuralInfo, bind_eq_ok, ensure_eq_ok, require_eq_ok, checkedAdd_eq_some,
    validateCheckpoint_eq_ok, validatePow_target_eq_ok, pure_eq_ok, not_mem_iff]
  constructor
  · rintro ⟨-, fresh, parent, found, height, ⟨fits, rfl⟩, -, checkpoint, -, ⟨nonzero, bounded⟩, -, pow, rfl⟩
    exact ⟨rfl, rfl, fresh, parent, found, rfl, fits, checkpoint, nonzero, bounded, pow, rfl⟩
  rintro ⟨rfl, hashed, fresh, parent, found, admissible⟩
  have height := admissible.height_eq
  refine ⟨(), hashed ▸ fresh, parent, found, info.height, ⟨height ▸ admissible.fits, height.symm⟩,
    (), hashed ▸ admissible.checkpoint, (),
    ⟨admissible.target_ne_zero, admissible.target_le⟩, (), hashed ▸ admissible.pow, ?_⟩
  rw [← admissible.chainwork_eq, ← hashed]

/-- The walk finds the lineage when the active chain below a retained entry is a lineage of the table. -/
theorem rebuildWalk_spec (dag : HeaderDag) {params : Params} {genesis : HeaderInfo}
    (rooted : Rooted crate params genesis dag.headers) (startsAtGenesis : dag.activeChain[0]? = some genesis.hash)
    (shared : ∀ index hash info, dag.activeChain[index]? = some hash →
      dag.headers.lookup hash = some info → info.height = index →
      Ancestry dag.headers (dag.activeChain.take (index + 1)))
    (rounds : Nat) (current : HeaderInfo) (suffix : List BlockHash)
    (found : dag.headers.lookup current.hash = some current) (enough : current.height < rounds) :
    ∃ front, dag.rebuildWalk rounds current suffix = .ok (front ++ suffix) ∧
      Ancestry dag.headers front ∧ front.length = current.height + 1 ∧ front.getLast? = some current.hash := by
  induction rounds generalizing current suffix with
  | zero => omega
  | succ _ ih =>
    by_cases onChain : dag.activeChain[current.height]? = some current.hash
    · have inside := (List.getElem_of_getElem? onChain).1
      refine ⟨dag.activeChain.take (current.height + 1), by simp [rebuildWalk, onChain],
        shared _ _ _ onChain found rfl, by simp; omega, ?_⟩
      rw [List.getLast?_eq_getElem?, List.length_take, Nat.min_eq_left (by omega), List.getElem?_take_of_lt (by omega)]
      exact onChain
    -- Genesis is on the chain, so the walk has a parent to go to.
    have above : 0 < current.height := by
      by_contra lowest
      have atZero : current.height = 0 := by omega
      rw [atZero, startsAtGenesis, rooted.eq_genesis_of_height found atZero] at onChain
      exact onChain rfl
    obtain ⟨parent, parentFound, admissible⟩ := rooted.parent_of_pos found above
    have parentHash := (rooted.keyed _ _ parentFound).1
    have height := admissible.height_eq
    obtain ⟨front, walked, lineage, _, last⟩ :=
      ih parent (current.hash :: suffix) (parentHash ▸ parentFound) (by omega)
    refine ⟨front ++ [current.hash], ?_, lineage.snoc found (by omega) ?_, by simp; omega, by simp⟩
    · simp [rebuildWalk, onChain, parentFound, walked]
    · intro before step
      rw [List.getLast?_eq_getElem?, step, parentHash] at last
      exact last

/-- A fresh header is added to table and child index, and the active chain moves only to a heavier one. -/
structure Retains (crate : HeaderCrate) (dag : HeaderDag) (info : HeaderInfo) (next : HeaderDag) : Prop where
  valid : next.Valid crate
  params_eq : next.params = dag.params
  deployments_eq : next.deployments = dag.deployments
  headers_eq : next.headers = dag.headers.insert info.hash info
  childCounts_eq : next.childCounts = dag.childCounts.map fun counts =>
      counts.increment info.header.prevBlockhash
  lighter : ∀ tip, dag.headers.lookup dag.activeTip = some tip → info.chainwork ≤ tip.chainwork →
    next.activeTip = dag.activeTip ∧ next.activeChain = dag.activeChain
  heavier : ∀ tip, dag.headers.lookup dag.activeTip = some tip → tip.chainwork < info.chainwork →
    next.activeTip = info.hash ∧ (info.header.prevBlockhash = dag.activeTip →
        next.activeChain = dag.activeChain ++ [info.hash])

structure Acceptable (crate : HeaderCrate) (dag : HeaderDag) (parent info : HeaderInfo) : Prop where
  fresh : dag.headers.lookup info.hash = none
  hashed : crate.blockHash info.header = info.hash
  parent_found : dag.headers.lookup info.header.prevBlockhash = some parent
  admissible : Admissible crate dag.params parent info

namespace Acceptable

variable {parent : HeaderInfo} (acceptable : Acceptable crate dag parent info)
include acceptable

theorem stays {hash : BlockHash} {found : HeaderInfo} (known : dag.headers.lookup hash = some found) :
    (dag.headers.insert info.hash info).lookup hash = some found := by
  rw [lookup_insert, if_neg, known]
  intro same
  rw [same, acceptable.fresh] at known
  cases known

variable (valid : dag.Valid crate)
include valid

theorem rooted :
    Rooted crate dag.params (genesisInfo crate dag.deployments.network) (dag.headers.insert info.hash info) :=
  valid.rooted.insert acceptable.fresh acceptable.hashed acceptable.parent_found acceptable.admissible

theorem active : Ancestry (dag.headers.insert info.hash info) dag.activeChain :=
  valid.active.mono fun _ _ => acceptable.stays

theorem counted {counts : Table BlockHash Nat}
    (indexed : (dag.childCounts.map fun counts => counts.increment info.header.prevBlockhash) = some counts) :
    counts.Tallies (childCount (dag.headers.insert info.hash info)) := by
  obtain ⟨previous, known, rfl⟩ := map_eq_some_iff.mp indexed
  have above : 0 < info.height := acceptable.admissible.height_eq ▸ Nat.succ_pos _
  exact (valid.counted previous known).increment (childCount_insert acceptable.fresh above)

theorem restore_valid (lighter : ∀ tip, dag.headers.lookup dag.activeTip = some tip →
      info.chainwork ≤ tip.chainwork) : (dag.restoreRetainedHeader info).Valid crate := by
  obtain ⟨tip, tipFound, -⟩ := valid.tip_retained
  refine ⟨valid.params_eq, acceptable.rooted valid, acceptable.active valid, valid.tip, ?_,
    fun counts => acceptable.counted valid⟩
  intro hash found tip' known tipKnown
  obtain rfl := mem_unique (acceptable.stays tipFound) tipKnown
  simp only [restoreRetainedHeader, lookup_insert] at known
  split at known
  · cases known
    exact lighter tip tipFound
  · exact valid.heaviest hash found tip known tipFound

theorem promoted_valid (heavier : ∀ tip, dag.headers.lookup dag.activeTip = some tip →
      tip.chainwork < info.chainwork) {chain : List BlockHash}
    (lineage : Ancestry (dag.headers.insert info.hash info) chain) (last : chain.getLast? = some info.hash) :
    ({ dag.restoreRetainedHeader info with activeChain := chain, activeTip := info.hash } : HeaderDag).Valid crate := by
  obtain ⟨tip, tipFound, -⟩ := valid.tip_retained
  refine ⟨valid.params_eq, acceptable.rooted valid, lineage, last, ?_, fun counts => acceptable.counted valid⟩
  intro hash found tip' known tipKnown
  simp only [restoreRetainedHeader, lookup_insert] at known
  obtain rfl : info = tip' := by
    simpa [restoreRetainedHeader] using tipKnown
  split at known
  · cases known
    exact Nat.le_refl _
  · exact Nat.le_of_lt (Nat.lt_of_le_of_lt (valid.heaviest hash found tip known tipFound) (heavier tip tipFound))

theorem retainInfo : ∃ next, dag.retainInfo info = .ok next ∧ Retains crate dag info next := by
  obtain ⟨tip, tipFound, tipHeight⟩ := valid.tip_retained
  have tipInfo : (dag.restoreRetainedHeader info).activeTipInfo = .ok tip := by
    simp [activeTipInfo, restoreRetainedHeader, acceptable.stays tipFound]
  have unique : ∀ {other : HeaderInfo}, dag.headers.lookup dag.activeTip = some other →
      other = tip := fun known => mem_unique known tipFound
  by_cases heavier : tip.chainwork < info.chainwork
  · have atTip : ∀ other, dag.headers.lookup dag.activeTip = some other →
        other.chainwork < info.chainwork := fun other known => unique known ▸ heavier
    by_cases extension : info.header.prevBlockhash = dag.activeTip
    · -- The child of the tip is one above it, so its height is the chain's length.
      have parentTip : parent = tip := unique (extension ▸ acceptable.parent_found)
      have height : info.height = dag.activeChain.length := by
        rw [acceptable.admissible.height_eq, parentTip, tipHeight]
      have lineage : Ancestry (dag.headers.insert info.hash info) (dag.activeChain ++ [info.hash]) :=
        (acceptable.active valid).snoc (by simp) height fun before step => by
          have atLast := valid.tip_mem
          rw [step, Nat.add_sub_cancel] at atLast
          rw [atLast, extension]
      refine ⟨_, ?_, acceptable.promoted_valid valid atTip lineage (by simp), rfl, rfl, rfl, rfl,
        fun other known light => ?_, fun other known _ => ⟨rfl, fun _ => rfl⟩⟩
      · have isExtension : info.header.prevBlockhash = (dag.restoreRetainedHeader info).activeTip ∧
            info.height = (dag.restoreRetainedHeader info).activeChain.length := ⟨extension, height⟩
        simp only [HeaderDag.retainInfo, tipInfo, ok_bind, heavier, promoteActiveTip, if_pos isExtension]
        rfl
      · exact absurd (atTip other known) (Nat.not_lt.mpr light)
    · have startsAtGenesis : (dag.restoreRetainedHeader info).activeChain[0]? =
          some (genesisInfo crate dag.deployments.network).hash := valid.genesis_active
      obtain ⟨_, walked, lineage, -, last⟩ :=
        rebuildWalk_spec (dag.restoreRetainedHeader info) (acceptable.rooted valid)
          startsAtGenesis (fun index _ _ _ _ _ => (acceptable.active valid).take (index + 1))
          (info.height + 1) info [] (by simp [restoreRetainedHeader]) (Nat.lt_succ_self _)
      refine ⟨_, ?_, acceptable.promoted_valid valid atTip lineage last, rfl, rfl, rfl, rfl,
        fun other known light => ?_, fun other known _ => ⟨rfl, fun isTip => ?_⟩⟩
      · have notExtension : ¬ (info.header.prevBlockhash = (dag.restoreRetainedHeader info).activeTip ∧
            info.height = (dag.restoreRetainedHeader info).activeChain.length) :=
          fun both => extension both.1
        simp only [HeaderDag.retainInfo, tipInfo, ok_bind, heavier, promoteActiveTip,
          if_neg notExtension, rebuildActiveChain, walked, List.append_nil]
        rfl
      · exact absurd (atTip other known) (Nat.not_lt.mpr light)
      · exact absurd isTip extension
  · have light : info.chainwork ≤ tip.chainwork := Nat.not_lt.mp heavier
    refine ⟨dag.restoreRetainedHeader info, ?_,
      acceptable.restore_valid valid (fun other known => unique known ▸ light), rfl, rfl, rfl, rfl,
      fun _ _ _ => ⟨rfl, rfl⟩, fun other known isHeavier => ?_⟩
    · simp [HeaderDag.retainInfo, tipInfo, heavier]
    · exact absurd (unique known ▸ isHeavier) heavier

end Acceptable

theorem structuralInfo_safe : Safe (dag.structuralInfo crate header) := by
  refine safe_ensure.bind fun _ _ => safe_require.bind fun _ _ => safe_require.bind fun _ _ =>
    Safe.bind ?_ fun _ _ => safe_ensure.bind fun _ _ => Safe.bind ?_ fun _ _ => safe_pure _
  · unfold validateCheckpoint
    split
    · exact safe_ensure
    · exact safe_ok _
  · exact safe_ensure.bind fun _ _ => safe_ensure

theorem lastRegularBits_safe {interval powLimit rounds : Nat} {cursor : HeaderInfo} :
    Safe (dag.lastRegularBits interval powLimit rounds cursor) := by
  induction rounds generalizing cursor with
  | zero => exact safe_ok _
  | succ _ ih =>
    unfold lastRegularBits
    split
    · exact safe_require.bind fun _ _ => ih
    · exact safe_ok _

theorem expectedNextBits_safe {candidate : Header} : Safe (dag.expectedNextBits crate candidate) := by
  refine safe_require.bind fun parent _ => safe_require.bind fun nextHeight _ => ?_
  dsimp only
  split
  · exact safe_require.bind fun _ _ => safe_pure _
  split_ifs
  · exact safe_pure _
  · exact safe_pure _
  · exact lastRegularBits_safe
  · exact safe_pure _

section
variable (valid : dag.Valid crate)
include valid

theorem insert_retains {next : HeaderDag} (accepted : dag.insert crate header = .ok (next, info)) :
    info.header = header ∧ (∃ parent, Acceptable crate dag parent info) ∧ Retains crate dag info next := by
  simp only [insert, bind_eq_ok, pure_eq_ok, Prod.mk.injEq] at accepted
  obtain ⟨info', checked, _, retained, rfl, rfl⟩ := accepted
  obtain ⟨rfl, hashed, fresh, parent, found, admissible⟩ := structuralInfo_eq_ok.mp checked
  have acceptable : Acceptable crate dag parent info' := ⟨fresh, hashed.symm, found, admissible⟩
  obtain ⟨_, retained', retains⟩ := acceptable.retainInfo valid
  cases retained.symm.trans retained'
  exact ⟨rfl, ⟨parent, acceptable⟩, retains⟩

theorem insert_of_acceptable {parent : HeaderInfo} (acceptable : Acceptable crate dag parent info) :
    ∃ next, dag.insert crate info.header = .ok (next, info) ∧ Retains crate dag info next := by
  obtain ⟨next, retained, retains⟩ := acceptable.retainInfo valid
  have checked : dag.structuralInfo crate info.header = .ok info :=
    structuralInfo_eq_ok.mpr ⟨rfl, acceptable.hashed.symm, acceptable.fresh, parent,
      acceptable.parent_found, acceptable.admissible⟩
  exact ⟨next, by simp [insert, checked, retained], retains⟩

theorem insert_safe : Safe (dag.insert crate header) := by
  refine structuralInfo_safe.bind fun info checked => ?_
  obtain ⟨rfl, hashed, fresh, _, found, admissible⟩ := structuralInfo_eq_ok.mp checked
  obtain ⟨_, retained, -⟩ := Acceptable.retainInfo ⟨fresh, hashed.symm, found, admissible⟩ valid
  rw [retained]
  exact safe_ok _

theorem validateContext_safe : Safe (dag.validateContext crate header adjustedTime) := by
  refine safe_ensure.bind fun _ _ => safe_require.bind fun parent parentFound =>
    safe_require.bind fun _ _ => Safe.bind ?_ fun _ _ => safe_ensure.bind fun _ _ =>
    Safe.bind ?_ fun _ _ => safe_ensure.bind fun _ _ => Safe.bind ?_ fun _ _ =>
    safe_ensure.bind fun _ _ => expectedNextBits_safe.bind fun _ _ => safe_ensure
  · unfold validateForkHeight
    split
    · exact safe_ensure
    · exact safe_ok _
  · rw [require_eq_ok] at parentFound
    rw [(valid.rooted.keyed _ _ parentFound).1, medianTimePast, parentFound]
    exact safe_ok _
  · unfold validateBip94Time
    split
    · exact safe_ensure
    · exact safe_ok _

theorem insertContextual_safe : Safe (dag.insertContextual crate header adjustedTime) :=
  (validateContext_safe valid).bind fun _ _ => insert_safe valid

end

theorem insertContextual_eq_ok {result : HeaderDag × HeaderInfo} :
    dag.insertContextual crate header adjustedTime = .ok result ↔
      dag.validateContext crate header adjustedTime = .ok () ∧ dag.insert crate header = .ok result := by
  simp only [insertContextual, bind_eq_ok]
  tauto

end HeaderDag

end Rbtc.Headers
