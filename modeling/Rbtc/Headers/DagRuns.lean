import Rbtc.Headers.StagingProperties

/-! Runs of header DAG operations; the heaviest tip does not depend on the order of arrival. -/

namespace Rbtc.Headers

open Foundation Bitcoin Fixture HeaderDag List Table

/-- The mutations of a header DAG. A staged batch or eviction is committed or dropped. -/
inductive DagOperation where
  | insert (header : Header)
  | insertContextual (header : Header) (adjustedTime : Nat)
  | stageBatch (headers : List Header) (adjustedTime : Nat) (commits : Bool)
  | evictLeaves (hashes pinnedTips : List BlockHash) (maxEntries : Nat) (commits : Bool)

namespace HeaderDag

variable (crate : HeaderCrate) (dag : HeaderDag)

def afterInsertion (result : Outcome HeaderError (HeaderDag × HeaderInfo)) :
    Outcome HeaderError HeaderDag :=
  match result with
  | .ok (next, _) => .ok next
  | .error (.refused _) => .ok dag
  | .error .panicked => .error .panicked

def perform : DagOperation → Outcome HeaderError HeaderDag
  | .insert header => dag.afterInsertion (dag.insert crate header)
  | .insertContextual header adjustedTime =>
    dag.afterInsertion (dag.insertContextual crate header adjustedTime)
  | .stageBatch headers adjustedTime commits =>
    match dag.stageBatchContextual crate headers adjustedTime with
    | .staged batch => if commits then .ok batch.commit.1 else batch.rollback
    | .refused _ after => .ok after
    | .panicked => .error .panicked
  | .evictLeaves hashes pinnedTips maxEntries commits =>
    match dag.stageLeafEvictions hashes pinnedTips maxEntries with
    | .staged stage => .ok (if commits then stage.commit else stage.restore)
    | .refused _ after => .ok after
    | .panicked => .error .panicked

def run (operations : List DagOperation) : Outcome HeaderError HeaderDag :=
  foldOutcome (fun current operation => current.perform crate operation) dag operations

def insertEach (headers : List Header) : Outcome HeaderError HeaderDag :=
  foldOutcome (fun current header => do
    let result ← current.insert crate header
    return result.1) dag headers

/-- Parents are retained, and the active chain is the path from genesis to a heaviest tip. -/
structure Sound (crate : HeaderCrate) (dag : HeaderDag) : Prop where
  parent_retained : ∀ hash info, dag.headers.lookup hash = some info →
    hash ≠ (genesisInfo crate dag.deployments.network).hash →
    ∃ parent, dag.headers.lookup info.header.prevBlockhash = some parent ∧ info.height = parent.height + 1 ∧
      (parent.chainwork + crate.toWork (crate.target info.header) < 2 ^ 256 →
        info.chainwork = parent.chainwork + crate.toWork (crate.target info.header))
  starts_at_genesis : dag.activeChain[0]? = some (genesisInfo crate dag.deployments.network).hash
  ends_at_tip : dag.activeChain.getLast? = some dag.activeTip
  active_path : ∀ index hash, dag.activeChain[index]? = some hash →
    ∃ info, dag.headers.lookup hash = some info ∧ info.height = index ∧
      ∀ before, index = before + 1 → dag.activeChain[before]? = some info.header.prevBlockhash
  heaviest : ∀ hash info tip, dag.headers.lookup hash = some info →
    dag.headers.lookup dag.activeTip = some tip → info.chainwork ≤ tip.chainwork

variable {crate : HeaderCrate} {dag : HeaderDag} (valid : dag.Valid crate)
include valid

theorem Valid.sound : dag.Sound crate where
  parent_retained hash info found above := by
    obtain ⟨parent, parentFound, admissible⟩ := valid.rooted.linked hash info found above
    exact ⟨parent, parentFound, admissible.height_eq, fun bounded => by
      rw [admissible.chainwork_eq, addWork_eq bounded]⟩
  starts_at_genesis := valid.genesis_active
  ends_at_tip := valid.tip
  active_path := valid.active.entry
  heaviest := valid.heaviest

theorem afterInsertion_valid {result : Outcome HeaderError (HeaderDag × HeaderInfo)} (safe : Safe result)
    (accepted : ∀ next info, result = .ok (next, info) → next.Valid crate ∧ next.deployments = dag.deployments) :
    ∃ next, dag.afterInsertion result = .ok next ∧ next.Valid crate ∧ next.deployments = dag.deployments := by
  match result with
  | .ok (next, info) => exact ⟨next, rfl, accepted next info rfl⟩
  | .error (.refused _) => exact ⟨dag, rfl, valid, rfl⟩
  | .error .panicked => exact absurd rfl safe

theorem stageBatch_valid (headers : List Header) (adjustedTime : Nat)
    (commits : Bool) : ∃ next, dag.perform crate (.stageBatch headers adjustedTime commits) = .ok next ∧
      (next.Valid crate ∧ next.deployments = dag.deployments) ∧
      (next = dag ∨ commits = true ∧ ∃ infos, dag.insertEachContextual crate headers adjustedTime =
        .ok (next, infos)) := by
  have loop := (StagesFrom.openBatch valid).stageLoop headers adjustedTime
  simp only [perform, stageBatchContextual]
  split at loop
  · next final finished =>
    rw [finished]
    cases commits with
    | true => exact ⟨final.dag, rfl, ⟨loop.1.valid, loop.1.deployments_eq⟩, .inr ⟨rfl, _, loop.2⟩⟩
    | false => exact ⟨dag, loop.1.rollback valid, ⟨valid, rfl⟩, .inl rfl⟩
  · next fault final stopped =>
    obtain ⟨stages, -, _, rfl⟩ := loop
    simp only [stopped, stages.rollback valid]
    exact ⟨dag, rfl, ⟨valid, rfl⟩, .inl rfl⟩

theorem evictLeaves_valid (hashes pinnedTips : List BlockHash) (maxEntries : Nat) (commits : Bool) :
    ∃ next, dag.perform crate (.evictLeaves hashes pinnedTips maxEntries commits) = .ok next ∧
      (next.Valid crate ∧ next.deployments = dag.deployments) ∧
      ∀ hash info, next.headers.lookup hash = some info → dag.headers.lookup hash = some info := by
  have indexed := valid.indexChildren hashes
  obtain ⟨_, same⟩ := @indexChildren_eq dag hashes
  have spec := valid.stageLeafEvictions hashes pinnedTips maxEntries
  simp only [perform]
  generalize dag.stageLeafEvictions hashes pinnedTips maxEntries = result at spec ⊢
  cases result with
  | staged stage =>
    obtain ⟨-, evicts, left, -⟩ := spec
    cases commits with
    | true =>
      refine ⟨stage.dag, rfl, ⟨evicts.valid, evicts.deployments_eq.trans (by rw [same])⟩, fun hash info found => ?_⟩
      rw [left] at found
      split at found
      · cases found
      · exact found
    | false =>
      simp only [Bool.false_eq_true, if_false, evicts.restored]
      exact ⟨_, rfl, ⟨indexed, by rw [same]⟩, fun _ _ found => by rwa [same] at found⟩
  | refused _ after =>
    obtain ⟨-, rfl | rfl⟩ := spec
    · exact ⟨after, rfl, ⟨valid, rfl⟩, fun _ _ found => found⟩
    · exact ⟨_, rfl, ⟨indexed, by rw [same]⟩, fun _ _ found => by rwa [same] at found⟩
  | panicked => exact spec.elim

theorem perform_valid (operation : DagOperation) :
    ∃ next, dag.perform crate operation = .ok next ∧ next.Valid crate ∧ next.deployments = dag.deployments := by
  have inserts : ∀ {header : Header} {next : HeaderDag} {info : HeaderInfo},
      dag.insert crate header = .ok (next, info) →
        next.Valid crate ∧ next.deployments = dag.deployments := fun accepted =>
    ⟨(insert_retains valid accepted).2.2.valid, (insert_retains valid accepted).2.2.deployments_eq⟩
  cases operation with
  | insert _ => exact afterInsertion_valid valid (insert_safe valid) fun _ _ => inserts
  | insertContextual _ adjustedTime =>
    exact afterInsertion_valid valid (insertContextual_safe valid) fun _ _ accepted =>
      inserts (insertContextual_eq_ok.mp accepted).2
  | stageBatch headers adjustedTime commits =>
    exact (stageBatch_valid valid headers adjustedTime commits).imp fun _ both => ⟨both.1, both.2.1⟩
  | evictLeaves hashes pinnedTips maxEntries commits =>
    exact (evictLeaves_valid valid hashes pinnedTips maxEntries commits).imp fun _ both => ⟨both.1, both.2.1⟩

theorem run_valid (operations : List DagOperation) :
    ∃ final, dag.run crate operations = .ok final ∧ final.Valid crate ∧ final.deployments = dag.deployments := by
  induction operations generalizing dag with
  | nil => exact ⟨dag, rfl, valid, rfl⟩
  | cons operation _ ih =>
    obtain ⟨_, performed, nextValid, sameDeployments⟩ := perform_valid valid operation
    obtain ⟨final, ran, finalValid, finalDeployments⟩ := ih nextValid
    refine ⟨final, ?_, finalValid, finalDeployments.trans sameDeployments⟩
    simp only [run, foldOutcome_cons, performed]
    exact ran

end HeaderDag

/-- Whenever child counts are kept, they are the numbers of retained children. -/
def HeaderDag.CountsChildren (dag : HeaderDag) : Prop :=
  ∀ counts, dag.childCounts = some counts → counts.Tallies (childCount dag.headers)

/-- After any history, an eviction is staged exactly for the lists that name spare headers leaf first;
staged, it has removed these, and refused or dropped it leaves everything but the child index as it was. -/
theorem leaf_evictions_exact (crate : HeaderCrate) (deployments : DeploymentConfig) (operations : List DagOperation) :
    ∃ dag, (withDeployments crate deployments).run crate operations = .ok dag ∧ dag.CountsChildren ∧
      ∀ hashes pinnedTips maxEntries, match dag.stageLeafEvictions hashes pinnedTips maxEntries with
        | .staged stage => dag.Evictable hashes pinnedTips maxEntries ∧
            (∀ hash, stage.commit.headers.lookup hash = if hash ∈ hashes then none else dag.headers.lookup hash) ∧
            (stage.commit.activeChain = dag.activeChain ∧ stage.commit.activeTip = dag.activeTip) ∧
            (∀ hash ∈ pinnedTips ++ dag.activeChain, hash ∈ stage.commit.headers) ∧
            (∀ hash ancestor, hash ∈ stage.commit.headers →
              Relation.ReflTransGen (fun child parent => ChildOf dag.headers parent child) hash ancestor →
              ancestor ∈ stage.commit.headers) ∧ (stage.commit.CountsChildren ∧ stage.restore.CountsChildren) ∧
            ∃ counts, stage.restore = { dag with childCounts := counts }
        | .refused _ after => ¬ dag.Evictable hashes pinnedTips maxEntries ∧ after.CountsChildren ∧
            ∃ counts, after = { dag with childCounts := counts }
        | .panicked => False := by
  obtain ⟨dag, ran, valid, -⟩ := run_valid (valid_withDeployments crate deployments) operations
  refine ⟨dag, ran, valid.counted, fun hashes pinnedTips maxEntries => ?_⟩
  have indexed := valid.indexChildren hashes
  obtain ⟨counts, same⟩ := @indexChildren_eq dag hashes
  have spec := valid.stageLeafEvictions hashes pinnedTips maxEntries
  generalize dag.stageLeafEvictions hashes pinnedTips maxEntries = result at spec ⊢
  cases result with
  | staged stage =>
    obtain ⟨evictable, evicts, left, chain, tip, -⟩ := spec
    have stays : ∀ hash, hash ∈ dag.headers → hash ∉ hashes → hash ∈ stage.dag.headers := by
      intro hash retained unlisted
      obtain ⟨_, found⟩ := mem_iff.mp retained
      exact mem_of_lookup (by rw [left, if_neg unlisted, found])
    refine ⟨evictable, left, ⟨chain, tip⟩, fun hash member => ?_, fun hash ancestor retained path => ?_,
      ⟨evicts.valid.counted, evicts.restored ▸ indexed.counted⟩, counts, evicts.restored.trans same⟩
    · rcases mem_append.mp member with pinned | active
      · exact stays hash (evictable.pins_known hash pinned) fun listed =>
          (evictable.leafFirst.spare hash listed).2.2 pinned
      obtain ⟨index, onChain⟩ := mem_iff_getElem?.mp active
      obtain ⟨_, found, -⟩ := valid.active.entry index hash onChain
      exact stays hash (mem_of_lookup found) fun listed =>
        (evictable.leafFirst.spare hash listed).2.1 active
    · -- What remains is closed under parents, and holds what it held before.
      induction path with
      | refl => exact retained
      | @tail child _ _ step ih =>
        obtain ⟨_, found, above, rfl⟩ := step
        obtain ⟨_, found'⟩ := mem_iff.mp ih
        have before := found'.symm.trans (left child)
        split at before
        · cases before
        · cases before.trans found
          obtain ⟨_, parentFound, -⟩ := evicts.valid.rooted.parent_of_pos found' above
          exact mem_of_lookup parentFound
  | refused _ after =>
    obtain ⟨stuck, rfl | rfl⟩ := spec
    · exact ⟨stuck, valid.counted, after.childCounts, rfl⟩
    · exact ⟨stuck, indexed.counted, counts, same⟩
  | panicked => exact spec

inductive Arrival where
  | structural (header : Header)
  | contextual (header : Header) (adjustedTime : Nat)

def Arrival.header : Arrival → Header
  | .structural header => header
  | .contextual header _ => header

def Arrival.operation : Arrival → DagOperation
  | .structural header => .insert header
  | .contextual header adjustedTime => .insertContextual header adjustedTime

namespace HeaderDag

variable (crate : HeaderCrate)

def accept (dag : HeaderDag) : Arrival → Outcome HeaderError (HeaderDag × HeaderInfo)
  | .structural header => dag.insert crate header
  | .contextual header adjustedTime => dag.insertContextual crate header adjustedTime

def acceptEach (dag : HeaderDag) (arrivals : List Arrival) : Outcome HeaderError HeaderDag :=
  foldOutcome (fun current arrival => do
    let result ← current.accept crate arrival
    return result.1) dag arrivals

theorem run_of_acceptEach {crate : HeaderCrate} {dag final : HeaderDag} {arrivals : List Arrival}
    (accepted : dag.acceptEach crate arrivals = .ok final) :
    dag.run crate (arrivals.map Arrival.operation) = .ok final := by
  induction arrivals generalizing dag with
  | nil => exact accepted
  | cons arrival _ ih =>
    simp only [acceptEach, foldOutcome_cons, bind_eq_ok, pure_eq_ok] at accepted
    obtain ⟨_, ⟨result, received, rfl⟩, remaining⟩ := accepted
    have performed : dag.perform crate arrival.operation = .ok result.1 := by
      cases arrival <;> simp only [accept] at received <;>
        simp [Arrival.operation, perform, afterInsertion, received]
    simp only [map_cons, run, foldOutcome_cons, performed]
    exact ih remaining

end HeaderDag

/-- The final DAG retains the initial headers and exactly the given further ones. -/
structure Gathers (crate : HeaderCrate) (dag : HeaderDag) (headers : List Header) (final : HeaderDag) : Prop where
  valid : final.Valid crate
  deployments_eq : final.deployments = dag.deployments
  extended : ∀ hash info, dag.headers.lookup hash = some info → final.headers.lookup hash = some info
  gathered : ∀ header ∈ headers, ∃ info,
    final.headers.lookup (crate.blockHash header) = some info ∧ info.header = header
  source : ∀ hash info, final.headers.lookup hash = some info →
    dag.headers.lookup hash = some info ∨ info.header ∈ headers
  fresh : ∀ header ∈ headers, dag.headers.lookup (crate.blockHash header) = none
  nodup : headers.Nodup

namespace Gathers

variable {crate : HeaderCrate} {dag current : HeaderDag} {headers : List Header}

theorem nil (valid : dag.Valid crate) : Gathers crate dag [] dag :=
  ⟨valid, rfl, fun _ _ found => found, nofun, fun _ _ found => .inl found, nofun, nodup_nil⟩

theorem snoc (gathers : Gathers crate dag headers current) {header : Header} {next : HeaderDag}
    {info : HeaderInfo} (inserted : current.insert crate header = .ok (next, info)) :
    Gathers crate dag (headers ++ [header]) next := by
  obtain ⟨rfl, ⟨_, acceptable⟩, retains⟩ := insert_retains gathers.valid inserted
  have stays : ∀ hash found, current.headers.lookup hash = some found →
      next.headers.lookup hash = some found := fun hash found known => by
    rw [retains.headers_eq]
    exact acceptable.stays known
  have isFresh : dag.headers.lookup (crate.blockHash info.header) = none := by
    rw [acceptable.hashed]
    cases before : dag.headers.lookup info.hash with
    | none => rfl
    | some found =>
      have stale := acceptable.fresh
      rw [gathers.extended _ _ before] at stale
      cases stale
  refine ⟨retains.valid, retains.deployments_eq.trans gathers.deployments_eq,
    fun hash found known => stays hash found (gathers.extended hash found known), ?_, ?_, ?_, ?_⟩
  · intro header member
    rcases mem_append.mp member with earlier | last
    · obtain ⟨found, known, same⟩ := gathers.gathered header earlier
      exact ⟨found, stays _ _ known, same⟩
    · obtain rfl := mem_singleton.mp last
      exact ⟨info, by rw [retains.headers_eq, acceptable.hashed, lookup_insert, if_pos rfl], rfl⟩
  · intro hash found known
    rw [retains.headers_eq, lookup_insert] at known
    split at known
    · cases known
      exact .inr (by simp)
    · exact (gathers.source hash found known).imp_right fun member => mem_append_left _ member
  · intro header member
    rcases mem_append.mp member with earlier | last
    · exact gathers.fresh header earlier
    · obtain rfl := mem_singleton.mp last
      exact isFresh
  · refine nodup_append.mpr ⟨gathers.nodup, nodup_singleton _, ?_⟩
    intro header member other last same
    obtain rfl := mem_singleton.mp last
    obtain ⟨_, known, -⟩ := gathers.gathered header member
    rw [same, acceptable.hashed, acceptable.fresh] at known
    cases known

theorem foldOutcome_insert {α : Type} {offer : HeaderDag → α → Outcome HeaderError HeaderDag}
    {header : α → Header} (inserts : ∀ current item next, offer current item = .ok next →
      ∃ info, current.insert crate (header item) = .ok (next, info))
    {items : List α} {final : HeaderDag} (gathers : Gathers crate dag headers current)
    (accepted : foldOutcome offer current items = .ok final) :
    Gathers crate dag (headers ++ items.map header) final := by
  induction items generalizing current headers with
  | nil =>
    cases accepted
    simpa using gathers
  | cons item _ ih =>
    simp only [foldOutcome_cons, bind_eq_ok] at accepted
    obtain ⟨next, offered, remaining⟩ := accepted
    obtain ⟨_, inserted⟩ := inserts current item next offered
    have gathered := ih (gathers.snoc inserted) remaining
    simpa using gathered

theorem acceptEach {arrivals : List Arrival} {final : HeaderDag} (valid : dag.Valid crate)
    (accepted : dag.acceptEach crate arrivals = .ok final) : Gathers crate dag (arrivals.map Arrival.header) final := by
  refine foldOutcome_insert (fun current arrival next offered => ?_) (Gathers.nil valid) accepted
  simp only [bind_eq_ok, pure_eq_ok] at offered
  obtain ⟨⟨_, info⟩, received, rfl⟩ := offered
  cases arrival with
  | structural _ => exact ⟨info, received⟩
  | contextual _ _ =>
    exact ⟨info, (insertContextual_eq_ok.mp received).2⟩

theorem insertEach {headers : List Header} {final : HeaderDag} (valid : dag.Valid crate)
    (accepted : dag.insertEach crate headers = .ok final) : Gathers crate dag headers final := by
  have gathers : Gathers crate dag ([] ++ headers.map id) final :=
    foldOutcome_insert (fun current header next offered => by
      simp only [bind_eq_ok, pure_eq_ok] at offered
      obtain ⟨⟨_, info⟩, inserted, rfl⟩ := offered
      exact ⟨info, inserted⟩) (Gathers.nil valid) accepted
  simpa using gathers

variable {headers' : List Header} {final final' : HeaderDag} (gathers : Gathers crate dag headers final)
include gathers

variable (gathers' : Gathers crate dag headers' final')
include gathers'

theorem lookup_of_subset (subset : ∀ header ∈ headers, header ∈ headers')
    {hash : BlockHash} {info : HeaderInfo} (found : final.headers.lookup hash = some info) :
    final'.headers.lookup hash = some info := by
  have transfer : ∀ hash info, final.headers.lookup hash = some info →
      ∃ info', final'.headers.lookup hash = some info' ∧ info.header = info'.header := by
    intro hash info known
    rcases gathers.source hash info known with initial | member
    · exact ⟨info, gathers'.extended hash info initial, rfl⟩
    · obtain ⟨info', known', same⟩ := gathers'.gathered _ (subset _ member)
      rw [(gathers.valid.rooted.keyed _ _ known).2] at known'
      exact ⟨info', known', same.symm⟩
  have rooted' := gathers'.valid.rooted
  rw [gathers'.deployments_eq, ← gathers.deployments_eq] at rooted'
  obtain ⟨info', found', -⟩ := transfer hash info found
  rw [found', gathers.valid.rooted.info_eq rooted' (fun hash info info' known known' => ?_) found found']
  obtain ⟨_, otherFound, same⟩ := transfer hash info known
  rw [same, Option.mem_unique otherFound known']

theorem headers_eq (sameSet : ∀ header, header ∈ headers ↔ header ∈ headers') : final.headers = final'.headers := by
  ext hash info : 2
  exact ⟨gathers.lookup_of_subset gathers' fun header => (sameSet header).mp,
    gathers'.lookup_of_subset gathers fun header => (sameSet header).mpr⟩

/-- Gathering the same headers ends with tips of equal chainwork, and with the same tip when only
one header reaches that chainwork. -/
theorem tips_agree (sameSet : ∀ header, header ∈ headers ↔ header ∈ headers') :
    ∃ tip tip', final.headers.lookup final.activeTip = some tip ∧
      final'.headers.lookup final'.activeTip = some tip' ∧ tip.chainwork = tip'.chainwork ∧
      ((∀ hash info, final.headers.lookup hash = some info → info.chainwork = tip.chainwork →
        hash = final.activeTip) → final'.activeTip = final.activeTip) := by
  have sameHeaders := gathers.headers_eq gathers' sameSet
  obtain ⟨tip, found, -⟩ := gathers.valid.tip_retained
  obtain ⟨tip', found', -⟩ := gathers'.valid.tip_retained
  have found'' := found'
  rw [← sameHeaders] at found''
  have atMost := gathers'.valid.heaviest _ tip tip' (sameHeaders ▸ found) found'
  have atLeast := gathers.valid.heaviest _ tip' tip found'' found
  have equalWork : tip.chainwork = tip'.chainwork := Nat.le_antisymm atMost atLeast
  exact ⟨tip, tip', found, found', equalWork, fun unique => unique _ _ found'' equalWork.symm⟩

end Gathers

def ParentFirst (crate : HeaderCrate) (genesis : BlockHash) (headers : List Header) : Prop :=
  ∀ front header back, headers = front ++ header :: back → header.prevBlockhash = genesis ∨
      ∃ earlier ∈ front, crate.blockHash earlier = header.prevBlockhash

theorem insertEach_reorder {crate : HeaderCrate} {deployments : DeploymentConfig}
    {headers headers' : List Header} {dag : HeaderDag}
    (accepted : (withDeployments crate deployments).insertEach crate headers = .ok dag)
    (reordered : headers'.Perm headers)
    (ordered : ParentFirst crate (genesisInfo crate deployments.network).hash headers') :
    ∃ dag', (withDeployments crate deployments).insertEach crate headers' = .ok dag' := by
  let origin := withDeployments crate deployments
  have originValid : origin.Valid crate := valid_withDeployments crate deployments
  have gathers := Gathers.insertEach originValid accepted
  have nodup : headers'.Nodup := reordered.nodup_iff.mpr gathers.nodup
  -- Induction on what is still to come; `front` has been inserted into `current`.
  suffices remaining : ∀ back front current, headers' = front ++ back →
      Gathers crate origin front current → ∃ final, current.insertEach crate back = .ok final from
    remaining headers' [] origin rfl (Gathers.nil originValid)
  intro back
  induction back with
  | nil => exact fun front current _ _ => ⟨current, rfl⟩
  | cons header rest ih =>
    intro front current split soFar
    have subset : ∀ earlier ∈ front, earlier ∈ headers := fun earlier member =>
      reordered.mem_iff.mp (split ▸ mem_append_left _ member)
    have offered : header ∈ headers := reordered.mem_iff.mp (by simp [split])
    obtain ⟨info, found, rfl⟩ := gathers.gathered header offered
    have hashed := (gathers.valid.rooted.keyed _ _ found).1
    have aboveGenesis : crate.blockHash info.header ≠ (genesisInfo crate dag.deployments.network).hash := by
      intro isGenesis
      have fresh := gathers.fresh _ offered
      rw [isGenesis, gathers.deployments_eq, originValid.rooted.root] at fresh
      cases fresh
    obtain ⟨parent, parentFound, admissible⟩ := gathers.valid.rooted.linked _ info found aboveGenesis
    have fresh : current.headers.lookup info.hash = none := by
      cases known : current.headers.lookup info.hash with
      | none => rfl
      | some _ =>
        have same := soFar.lookup_of_subset gathers subset known
        rw [hashed, found, Option.some.injEq] at same
        subst same
        rcases soFar.source _ _ known with initial | member
        · rw [hashed, gathers.fresh _ offered] at initial
          cases initial
        · rw [split, nodup_append] at nodup
          exact absurd rfl (nodup.2.2 _ member _ mem_cons_self)
    have parentKnown : current.headers.lookup info.header.prevBlockhash = some parent := by
      obtain ⟨known, present⟩ : ∃ known, current.headers.lookup info.header.prevBlockhash = some known := by
        rcases ordered front info.header rest split with isGenesis | ⟨earlier, member, isParent⟩
        · exact ⟨_, soFar.extended _ _ (isGenesis ▸ originValid.rooted.root)⟩
        · obtain ⟨known, present, -⟩ := soFar.gathered earlier member
          exact ⟨known, isParent ▸ present⟩
      have same := soFar.lookup_of_subset gathers subset present
      rw [present, Option.mem_unique same parentFound]
    have sameParams : current.params = dag.params := by
      rw [soFar.valid.params_eq, gathers.valid.params_eq, soFar.deployments_eq, gathers.deployments_eq]
    obtain ⟨next, inserted, -⟩ := insert_of_acceptable soFar.valid
      ⟨fresh, hashed.symm, parentKnown, sameParams ▸ admissible⟩
    obtain ⟨final, completed⟩ := ih (front ++ [info.header]) next (by simp [split]) (soFar.snoc inserted)
    refine ⟨final, ?_⟩
    simp only [insertEach, foldOutcome_cons, inserted]
    exact completed

/-- The invariant over every run on every network; the heaviest tip is independent of the order of arrival. -/
theorem headerDag_sound (crate : HeaderCrate) (deployments : DeploymentConfig) : (∀ operations, ∃ dag,
      (withDeployments crate deployments).run crate operations = .ok dag ∧ dag.Sound crate) ∧
    (∀ headers headers' : List Header, ∀ dag : HeaderDag, headers'.Perm headers →
      ParentFirst crate (genesisInfo crate deployments.network).hash headers' →
      (withDeployments crate deployments).insertEach crate headers = .ok dag →
      ∃ dag', (withDeployments crate deployments).insertEach crate headers' = .ok dag') ∧
    ∀ arrivals arrivals' : List Arrival, ∀ dag dag' : HeaderDag,
      (arrivals.map Arrival.header).Perm (arrivals'.map Arrival.header) →
      (withDeployments crate deployments).acceptEach crate arrivals = .ok dag →
      (withDeployments crate deployments).acceptEach crate arrivals' = .ok dag' →
      ∃ tip tip', dag.headers.lookup dag.activeTip = some tip ∧
        dag'.headers.lookup dag'.activeTip = some tip' ∧ tip.chainwork = tip'.chainwork ∧
        ((∀ hash info, dag.headers.lookup hash = some info → info.chainwork = tip.chainwork →
          hash = dag.activeTip) → dag'.activeTip = dag.activeTip) := by
  have valid := valid_withDeployments crate deployments
  refine ⟨fun operations => ?_, fun headers headers' dag reordered ordered accepted =>
    insertEach_reorder accepted reordered ordered, ?_⟩
  · obtain ⟨dag, ran, finalValid, -⟩ := run_valid valid operations
    exact ⟨dag, ran, finalValid.sound⟩
  · intro arrivals arrivals' dag dag' sameHeaders accepted accepted'
    exact (Gathers.acceptEach valid accepted).tips_agree (Gathers.acceptEach valid accepted')
      fun header => sameHeaders.mem_iff

/-- Two branches received in two orders lead to one tip. -/
theorem headerDag_sound_two_orders : ∃ dag dag', origin.acceptEach crate [.structural (header 2),
      .contextual (header 3) 10, .structural (header 5)] = .ok dag ∧ origin.acceptEach crate [.structural (header 3),
      .structural (header 5), .contextual (header 2) 10] = .ok dag' ∧
    ∃ tip tip', dag.headers.lookup dag.activeTip = some tip ∧
      dag'.headers.lookup dag'.activeTip = some tip' ∧ tip.chainwork = tip'.chainwork := by
  have received (arrivals : List Arrival) (accepted : (origin.acceptEach crate arrivals).toOption.isSome = true) :
      ∃ dag, origin.acceptEach crate arrivals = .ok dag := by
    cases result : origin.acceptEach crate arrivals with
    | ok dag => exact ⟨dag, rfl⟩
    | error _ =>
      rw [result] at accepted
      cases accepted
  obtain ⟨dag, accepted⟩ := received [.structural (header 2),
    .contextual (header 3) 10, .structural (header 5)] (by decide)
  obtain ⟨dag', accepted'⟩ := received [.structural (header 3),
    .structural (header 5), .contextual (header 2) 10] (by decide)
  obtain ⟨tip, tip', found, found', same, -⟩ :=
    (headerDag_sound crate deployments).2.2 _ _ dag dag' (by decide) accepted accepted'
  exact ⟨dag, dag', accepted, accepted', tip, tip', found, found', same⟩

def HeaderDag.tipWork (dag : HeaderDag) : Nat := (dag.headers.lookup dag.activeTip).elim 0 HeaderInfo.chainwork

structure SameChain (dag next : HeaderDag) : Prop where
  work : next.tipWork = dag.tipWork
  tip : next.activeTip = dag.activeTip
  chain : next.activeChain = dag.activeChain

/-- The active chain is still the same, or has given way to one with strictly more work. -/
def Ahead (crate : HeaderCrate) (dag next : HeaderDag) : Prop :=
  next.Valid crate ∧ (dag.tipWork < next.tipWork ∨ SameChain dag next)

section
variable {crate : HeaderCrate} {dag current next : HeaderDag}

/-- An insertion moves the tip only to a header of more work. -/
theorem insert_sameChain (valid : current.Valid crate) {header : Header} {info : HeaderInfo}
    (inserted : current.insert crate header = .ok (next, info)) (lighter : info.chainwork ≤ current.tipWork) :
    SameChain current next := by
  obtain ⟨rfl, ⟨_, acceptable⟩, retains⟩ := insert_retains valid inserted
  obtain ⟨tip, found, -⟩ := valid.tip_retained
  have work : current.tipWork = tip.chainwork := by simp [tipWork, found]
  obtain ⟨sameTip, sameChain⟩ := retains.lighter tip found (work ▸ lighter)
  refine ⟨?_, sameTip, sameChain⟩
  simp [tipWork, sameTip, retains.headers_eq, acceptable.stays found, found]

theorem evictLeaves_sameChain (valid : current.Valid crate) {hashes pinnedTips : List BlockHash} {maxEntries : Nat}
    {commits : Bool} (performed :
      current.perform crate (.evictLeaves hashes pinnedTips maxEntries commits) = .ok next) :
    SameChain current next := by
  have indexed : SameChain current (current.indexChildren hashes) := by
    obtain ⟨_, same⟩ := @indexChildren_eq current hashes
    rw [same]
    exact ⟨rfl, rfl, rfl⟩
  have spec := valid.stageLeafEvictions hashes pinnedTips maxEntries
  simp only [HeaderDag.perform] at performed
  generalize current.stageLeafEvictions hashes pinnedTips maxEntries = result at spec performed
  cases result with
  | staged stage =>
    obtain ⟨-, evicts, left, chain, tip, -⟩ := spec
    cases commits <;> cases performed
    · exact evicts.restored ▸ indexed
    · -- The tip is still retained, so it is not among the evicted headers.
      obtain ⟨_, found, -⟩ := evicts.valid.tip_retained
      have sameWork : stage.dag.tipWork = current.tipWork := by grind [tipWork]
      exact ⟨sameWork, tip, chain⟩
  | refused _ after =>
    cases performed
    obtain ⟨-, rfl | rfl⟩ := spec
    · exact ⟨rfl, rfl, rfl⟩
    · exact indexed
  | panicked => cases performed

namespace Ahead

theorem of_sameChain (ahead : Ahead crate dag current) (valid : next.Valid crate) (same : SameChain current next) :
    Ahead crate dag next := by
  refine ⟨valid, ahead.2.imp (fun less => same.work ▸ less) fun kept => ?_⟩
  exact ⟨same.work.trans kept.work, same.tip.trans kept.tip, same.chain.trans kept.chain⟩

theorem insert (ahead : Ahead crate dag current) {header : Header} {info : HeaderInfo}
    (inserted : current.insert crate header = .ok (next, info)) : Ahead crate dag next := by
  obtain ⟨-, -, retains⟩ := insert_retains ahead.1 inserted
  cases Nat.lt_or_ge current.tipWork info.chainwork with
  | inl heavier =>
    obtain ⟨tip, found, -⟩ := ahead.1.tip_retained
    have isTip := (retains.heavier tip found (by simpa [tipWork, found] using heavier)).1
    have nextWork : next.tipWork = info.chainwork := by simp [tipWork, isTip, retains.headers_eq]
    refine ⟨retains.valid, .inl ?_⟩
    rcases ahead.2 with less | same
    · omega
    · have := same.work
      omega
  | inr lighter => exact ahead.of_sameChain retains.valid (insert_sameChain ahead.1 inserted lighter)

theorem perform (ahead : Ahead crate dag current) {operation : DagOperation}
    (performed : current.perform crate operation = .ok next) : Ahead crate dag next := by
  cases operation with
  | insert _ | insertContextual _ _ =>
    simp only [HeaderDag.perform, afterInsertion] at performed
    split at performed <;> cases performed
    · next inserted => first | exact ahead.insert inserted | exact ahead.insert (insertContextual_eq_ok.mp inserted).2
    · exact ahead
  | stageBatch headers adjustedTime commits =>
    obtain ⟨_, staged, -, rfl | ⟨-, _, accepted⟩⟩ := stageBatch_valid ahead.1 headers adjustedTime commits <;>
      cases staged.symm.trans performed
    · exact ahead
    · apply @foldOutcome_invariant _ _ _ _ (fun state => Ahead crate dag state.1) _ _ _ _ ahead accepted
      intro state header after _ soFar inserted
      simp only [insertNextContextual, bind_eq_ok, pure_eq_ok] at inserted
      obtain ⟨_, inserted, rfl⟩ := inserted
      exact soFar.insert (insertContextual_eq_ok.mp inserted).2
  | evictLeaves hashes pinnedTips maxEntries commits =>
    obtain ⟨_, performs, ⟨valid, -⟩, -⟩ := evictLeaves_valid ahead.1 hashes pinnedTips maxEntries commits
    cases performs.symm.trans performed
    exact ahead.of_sameChain valid (evictLeaves_sameChain ahead.1 performed)

end Ahead

end

/-- The first-seen rule along every run: only more work moves the tip; a header without it, a dropped batch and
an eviction leave the active chain as it was. -/
theorem active_chain_yields_to_work (crate : HeaderCrate) (deployments : DeploymentConfig)
    (earlier later : List DagOperation) :
    ∃ before after, (withDeployments crate deployments).run crate earlier = .ok before ∧
      before.run crate later = .ok after ∧ Ahead crate before after ∧
      (∀ header next info, before.insert crate header = .ok (next, info) → info.chainwork ≤ before.tipWork →
        SameChain before next) ∧
      (∀ headers adjustedTime, before.perform crate (.stageBatch headers adjustedTime false) = .ok before) ∧
      ∀ hashes pinnedTips maxEntries commits, ∃ next,
        before.perform crate (.evictLeaves hashes pinnedTips maxEntries commits) = .ok next ∧
        SameChain before next := by
  obtain ⟨before, ran, valid, -⟩ := run_valid (valid_withDeployments crate deployments) earlier
  obtain ⟨after, ranOn, -⟩ := run_valid valid later
  refine ⟨before, after, ran, ranOn, ?_, fun _ _ _ => insert_sameChain valid, fun headers adjustedTime => ?_,
    fun hashes pinnedTips maxEntries commits => ?_⟩
  · exact @foldOutcome_invariant _ _ _ _ (Ahead crate before) _ _ _
      (fun _ _ _ _ ahead performed => ahead.perform performed) ⟨valid, .inr ⟨rfl, rfl, rfl⟩⟩ ranOn
  · obtain ⟨_, staged, -, rfl | ⟨commits, -⟩⟩ := stageBatch_valid valid headers adjustedTime false
    · exact staged
    · cases commits
  · obtain ⟨next, performed, -⟩ := evictLeaves_valid valid hashes pinnedTips maxEntries commits
    exact ⟨next, performed, evictLeaves_sameChain valid performed⟩

end Rbtc.Headers
