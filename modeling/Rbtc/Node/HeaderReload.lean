import Rbtc.Headers.HeaderStore
import Rbtc.Node.HeaderSync
import Rbtc.Node.NetworkTime

/-! Headers are accepted against network time, but replayed against the local clock alone. -/

namespace Rbtc.Node

open Foundation Bitcoin Headers RedbHeaderStore PersistedHeaders

/-- The header side of a node: the DAG it holds while a session lasts, the header database, and its notion of
network time. -/
structure HeaderNode where
  dag : Option HeaderDag
  store : RedbHeaderStore
  time : NetworkTime

/-- What happens to the headers of a node. Writes to the database may fail. -/
inductive HeaderEvent where
  | observe (remote : IpAddr) (peerTime : Int)
  | beginSync
  | page (headers : List Header) (writes : Bool)
  | submit (header : Header) (writes : Bool)
  | failover
  | restart

namespace HeaderNode

def start : HeaderNode := ⟨none, .empty, .default⟩

variable (crate : HeaderCrate) (deployments : DeploymentConfig) (node : HeaderNode) (localTime : Nat)

/-- The DAG `sync_headers` starts from: the given one, or the replay of the database at the local time. -/
def openDag : Outcome HeaderStoreError HeaderDag :=
  match node.dag with
  | some dag => do
      ensure (dag.deployments = deployments ∧ dag.headers.keys.card = node.store.headers.keys.card + 1)
        (.refused (.malformed
          "retained header DAG does not match the persistence count or deployment configuration"))
      return dag
  | none => node.store.loadDag crate deployments localTime

def beginSync : Outcome HeaderStoreError HeaderNode :=
  match node.openDag crate deployments localTime with
  | .ok dag => .ok { node with dag := some dag }
  | .error (.refused _) => .ok { node with dag := none }
  | .error .panicked => .error .panicked

def page (dag : HeaderDag) (headers : List Header) (writes : Bool) : Outcome HeaderStoreError HeaderNode :=
  match unseenHeaderSuffix crate dag headers with
  | .error _ => .ok { node with dag := none }
  | .ok unseen =>
    if unseen.isEmpty then .ok node
    else
      match dag.stageBatchContextual crate unseen (node.time.adjustedTime localTime) with
      | .panicked => .error .panicked
      | .refused _ _ => .ok { node with dag := none }
      | .staged staged =>
        match transact writes (node.store.appendBatch crate unseen) with
        | .ok store => .ok { node with dag := some staged.commit.1, store }
        | .error _ => .ok { node with dag := none }

/-- One submission of `stage_submitted_blocks`: a header that is refused or not written is rolled back. -/
def submit (dag : HeaderDag) (header : Header) (writes : Bool) : Outcome HeaderStoreError HeaderNode := do
  let after ← append crate ⟨dag, node.store⟩ [header] (node.time.adjustedTime localTime) writes
  return { node with dag := some after.dag, store := after.store }

def perform : HeaderEvent → Outcome HeaderStoreError HeaderNode
  | .observe remote peerTime => .ok { node with time := node.time.observe remote peerTime localTime }
  | .beginSync => node.beginSync crate deployments localTime
  | .page headers writes =>
    match node.dag with
    | some dag => node.page crate localTime dag headers writes
    | none => .ok node
  | .submit header writes =>
    match node.dag with
    | some dag => node.submit crate localTime dag header writes
    | none => .ok node
  | .failover => .ok { node with dag := none }
  | .restart => .ok { node with dag := none, time := .default }

def run (events : List (Nat × HeaderEvent)) : Outcome HeaderStoreError HeaderNode :=
  foldOutcome (fun current event => current.perform crate deployments event.1 event.2) node events

end HeaderNode

section
variable {crate : HeaderCrate} {deployments : DeploymentConfig} {store : RedbHeaderStore}
  {now : Nat} {dag : HeaderDag} {rows : List (Nat × BlockHash)} {latest : Nat}

theorem inTime_of_replay {final : HeaderDag} (replays : foldOutcome (store.replayRow crate now) dag rows = .ok final) :
    ∀ row ∈ rows, ∀ header, store.headers.lookup row.2 = some header → InTime now header := by
  induction rows generalizing dag with
  | nil => exact nofun
  | cons _ _ ih =>
    rw [foldOutcome_cons, bind_eq_ok] at replays
    obtain ⟨_, isNext, remaining⟩ := replays
    refine List.forall_mem_cons.mpr ⟨fun header stored => ?_, ih remaining⟩
    simp only [replayRow, malformed, bind_eq_ok, require_eq_ok, mapError_eq_ok] at isNext
    obtain ⟨_, found, _, -, _, accepted, -⟩ := isNext
    cases found.symm.trans stored
    exact HeaderDag.insertContextual_inTime accepted

theorem replayRow_safe {row : Nat × BlockHash} (valid : dag.Valid crate) :
    Safe (store.replayRow crate now dag row) := by
  refine Safe.bind safe_require fun header _ => Safe.bind safe_ensure fun _ _ =>
    Safe.bind ?_ fun result _ => safe_pure _
  have safe : Safe (dag.insertContextual crate header now) := HeaderDag.insertContextual_safe valid
  cases accepted : dag.insertContextual crate header now with
  | ok result => exact safe_ok result
  | error fault =>
    cases fault with
    | refused _ => nofun
    | panicked => exact absurd accepted safe

theorem replay_safe (valid : dag.Valid crate) : Safe (foldOutcome (store.replayRow crate now) dag rows) := by
  induction rows generalizing dag with
  | nil => exact safe_ok dag
  | cons _ _ ih =>
    refine (replayRow_safe valid).bind fun next isNext => ih ?_
    simp only [replayRow, bind_eq_ok, mapError_eq_ok] at isNext
    obtain ⟨_, -, _, -, ⟨_, _⟩, accepted, same⟩ := isNext
    cases same
    obtain ⟨-, -, retains⟩ := HeaderDag.insert_retains valid (HeaderDag.insertContextual_eq_ok.mp accepted).2
    exact retains.valid

theorem loadDag_safe (now : Nat) : Safe (store.loadDag crate deployments now) :=
  Safe.bind safe_ensure fun _ _ => Safe.bind safe_ensure fun _ _ =>
    replay_safe (HeaderDag.valid_withDeployments crate deployments)

theorem inTime_of_loadDag {loaded : HeaderDag}
    (faithful : PersistedHeaders.Faithful crate deployments latest ⟨dag, store⟩)
    (loads : store.loadDag crate deployments now = .ok loaded) :
    ∀ hash header, store.headers.lookup hash = some header → InTime now header := by
  obtain ⟨rows, records, -⟩ := faithful
  intro hash header stored
  simp only [loadDag, loadDagWithLimit, bind_eq_ok] at loads
  obtain ⟨_, -, _, -, replays⟩ := loads
  have listed : (hash, header) ∈ rows.map fun row => (row.2.hash, row.2.header) := by
    rw [records.headers] at stored
    exact Table.mem_of_lookup_ofList stored
  obtain ⟨row, member, same⟩ := List.mem_map.mp listed
  cases same
  exact inTime_of_replay replays (row.1, row.2.hash) (mem_sortedEntries.mpr (records.lookup_order member))
    row.2.header stored

theorem loadDag_of_inTime (collisionFree : CollisionFree crate)
    (faithful : PersistedHeaders.Faithful crate deployments latest ⟨dag, store⟩)
    (inTime : ∀ hash header, store.headers.lookup hash = some header → InTime now header) :
    ∃ loaded, store.loadDag crate deployments now = .ok loaded ∧
      PersistedHeaders.Faithful crate deployments now ⟨loaded, store⟩ := by
  obtain ⟨rows, records, logged⟩ := faithful
  have allInTime : ∀ info ∈ rows.map Prod.snd, InTime now info.header := by
    intro info member
    obtain ⟨row, isRow, rfl⟩ := List.mem_map.mp member
    exact inTime row.2.hash row.2.header (records.lookup_header isRow)
  obtain ⟨loaded, loads, reloaded⟩ := records.loadDag collisionFree logged allInTime
  exact ⟨loaded, loads, rows, records, reloaded⟩

end

namespace HeaderNode

variable {crate : HeaderCrate} {deployments : DeploymentConfig}

/-- The database is the log of some run of the DAG, and of the DAG at hand if there is one. -/
structure Recorded (crate : HeaderCrate) (deployments : DeploymentConfig) (node : HeaderNode) : Prop where
  past : ∃ latest dag, PersistedHeaders.Faithful crate deployments latest ⟨dag, node.store⟩
  live : ∀ dag ∈ node.dag, ∃ latest, PersistedHeaders.Faithful crate deployments latest ⟨dag, node.store⟩

theorem recorded_start : start.Recorded crate deployments :=
  ⟨⟨0, _, [], .empty crate, Logged.start crate deployments 0⟩, nofun⟩

variable {node : HeaderNode}

theorem Recorded.drop (recorded : node.Recorded crate deployments) (time : NetworkTime) :
    Recorded crate deployments { node with dag := none, time } :=
  ⟨recorded.past, nofun⟩

theorem beginSync_recorded (collisionFree : CollisionFree crate)
    (recorded : node.Recorded crate deployments) (localTime : Nat) :
    ∃ next, node.beginSync crate deployments localTime = .ok next ∧ next.Recorded crate deployments := by
  obtain ⟨latest, past, faithful⟩ := recorded.past
  have opens : Safe (node.openDag crate deployments localTime) ∧
      ∀ dag, node.openDag crate deployments localTime = .ok dag →
        ∃ latest, PersistedHeaders.Faithful crate deployments latest ⟨dag, node.store⟩ := by
    unfold openDag
    cases held : node.dag with
    | some dag =>
      refine ⟨Safe.bind safe_ensure fun _ _ => safe_pure _, fun opened isOpened => ?_⟩
      simp only [bind_eq_ok, pure_eq_ok] at isOpened
      obtain ⟨_, -, rfl⟩ := isOpened
      exact recorded.live dag held
    | none =>
      refine ⟨loadDag_safe localTime, fun loaded loads => ?_⟩
      obtain ⟨_, again, reloaded⟩ := loadDag_of_inTime collisionFree faithful (inTime_of_loadDag faithful loads)
      cases loads.symm.trans again
      exact ⟨localTime, reloaded⟩
  unfold beginSync
  split
  · next dag opened =>
    refine ⟨_, rfl, recorded.past, ?_⟩
    rintro _ ⟨⟩
    exact opens.2 dag opened
  · exact ⟨_, rfl, recorded.drop node.time⟩
  · next panicked => exact absurd panicked opens.1

section
variable {dag : HeaderDag} (recorded : node.Recorded crate deployments) (localTime : Nat)
  (isDag : node.dag = some dag)
include recorded localTime isDag

theorem page_recorded (headers : List Header) (writes : Bool) :
    ∃ next, node.page crate localTime dag headers writes = .ok next ∧ next.Recorded crate deployments := by
  obtain ⟨_, faithful⟩ := recorded.live dag isDag
  unfold page
  split
  · exact ⟨_, rfl, recorded.drop node.time⟩
  rename_i unseen suffix
  obtain ⟨next, appended, nextFaithful⟩ :=
    append_faithful faithful unseen (node.time.adjustedTime localTime) writes
  unfold append at appended
  split
  · exact ⟨node, rfl, recorded⟩
  split
  · next panicked => simp only [panicked] at appended; nomatch appended
  · exact ⟨_, rfl, recorded.drop node.time⟩
  rename_i staged isStaged
  simp only [isStaged] at appended
  split
  · next store written =>
    simp only [written, Except.ok.injEq] at appended
    subst appended
    refine ⟨_, rfl, ⟨_, _, nextFaithful⟩, ?_⟩
    rintro _ ⟨⟩
    exact ⟨_, nextFaithful⟩
  · exact ⟨_, rfl, recorded.drop node.time⟩

theorem submit_recorded (header : Header) (writes : Bool) :
    ∃ next, node.submit crate localTime dag header writes = .ok next ∧ next.Recorded crate deployments := by
  obtain ⟨_, faithful⟩ := recorded.live dag isDag
  obtain ⟨next, appended, nextFaithful⟩ :=
    append_faithful faithful [header] (node.time.adjustedTime localTime) writes
  refine ⟨{ node with dag := some next.dag, store := next.store }, ?_, ⟨_, _, nextFaithful⟩, ?_⟩
  · rw [submit, appended]
    rfl
  · rintro _ ⟨⟩
    exact ⟨_, nextFaithful⟩

end

section
variable (collisionFree : CollisionFree crate) (recorded : node.Recorded crate deployments)
include collisionFree recorded

theorem perform_recorded (localTime : Nat) (event : HeaderEvent) :
    ∃ next, node.perform crate deployments localTime event = .ok next ∧ next.Recorded crate deployments := by
  cases event with
  | observe _ _ => exact ⟨_, rfl, recorded.past, recorded.live⟩
  | beginSync => exact beginSync_recorded collisionFree recorded localTime
  | page headers writes =>
    simp only [perform]
    split
    · next dag isDag => exact page_recorded recorded localTime isDag headers writes
    · exact ⟨node, rfl, recorded⟩
  | submit header writes =>
    simp only [perform]
    split
    · next dag isDag => exact submit_recorded recorded localTime isDag header writes
    · exact ⟨node, rfl, recorded⟩
  | failover => exact ⟨_, rfl, recorded.drop node.time⟩
  | restart => exact ⟨_, rfl, recorded.drop .default⟩

theorem run_recorded (events : List (Nat × HeaderEvent)) :
    ∃ final, node.run crate deployments events = .ok final ∧ final.Recorded crate deployments := by
  induction events generalizing node with
  | nil => exact ⟨node, rfl, recorded⟩
  | cons event _ ih =>
    obtain ⟨next, performed, nextRecorded⟩ := perform_recorded collisionFree recorded event.1 event.2
    obtain ⟨final, ran, finalRecorded⟩ := ih nextRecorded
    exact ⟨final, bind_eq_ok.mpr ⟨next, performed, ran⟩, finalRecorded⟩

end

/-- The header database loads exactly at the local times at most two hours behind each header in it. -/
theorem reload_succeeds_iff (collisionFree : CollisionFree crate) (deployments : DeploymentConfig)
    (events : List (Nat × HeaderEvent)) : ∃ node, start.run crate deployments events = .ok node ∧ ∀ now,
      (∃ dag, node.store.loadDag crate deployments now = .ok dag) ↔
        ∀ hash header, node.store.headers.lookup hash = some header →
          header.time ≤ saturatingAdd 32 now maxFutureBlockTimeSecs := by
  obtain ⟨node, ran, recorded⟩ := run_recorded collisionFree (@recorded_start crate deployments) events
  obtain ⟨_, past, faithful⟩ := recorded.past
  refine ⟨node, ran, fun now => ⟨?_, ?_⟩⟩
  · rintro ⟨loaded, loads⟩
    exact inTime_of_loadDag faithful loads
  · intro inTime
    obtain ⟨loaded, loads, -⟩ := loadDag_of_inTime collisionFree faithful inTime
    exact ⟨loaded, loads⟩

/-- The fixture with targets that leave room for headers of any time. -/
def roomyCrate : HeaderCrate :=
  { Fixture.crate with
    target := fun _ => (2 ^ 250) ^ 4
    paramsNew := fun network => { Fixture.params network with maxAttainableTarget := (2 ^ 250) ^ 4 } }

theorem roomyCrate_collisionFree : CollisionFree roomyCrate :=
  ⟨Fixture.collisionFree.injective, Fixture.collisionFree.genesis_parent⟩

def aheadHeader : Header := { Fixture.header 2 with time := 10000 }

def aheadRun : List (Nat × HeaderEvent) :=
  [1, 2, 3, 4, 5].map (fun network => (1000, .observe (peerAt network) 4000)) ++
    [(1000, .beginSync), (1000, .page [aheadHeader] true)]

theorem aheadRun_outcome : (start.run roomyCrate Fixture.deployments aheadRun).map (fun node =>
      (node.store.headers, (node.store.loadDag roomyCrate Fixture.deployments 1000).map fun _ => ())) =
      .ok (Table.singleton (roomyCrate.blockHash aheadHeader) aheadHeader,
        .error (.refused (.header (.timeTooNew 10000 8200)))) := by
  decide +kernel

theorem aheadRun_stores {node : HeaderNode} (ran : start.run roomyCrate Fixture.deployments aheadRun = .ok node) :
    node.store.headers = Table.singleton (roomyCrate.blockHash aheadHeader) aheadHeader ∧
      ¬ ∃ dag, node.store.loadDag roomyCrate Fixture.deployments 1000 = .ok dag := by
  have outcome := aheadRun_outcome
  simp only [ran, Except.map, Except.ok.injEq, Prod.mk.injEq] at outcome
  refine ⟨outcome.1, ?_⟩
  rintro ⟨_, loads⟩
  simp [loads] at outcome

theorem restart_refuses_accepted_header : ∃ node, start.run roomyCrate Fixture.deployments aheadRun = .ok node ∧
      node.store.headers.lookup (roomyCrate.blockHash aheadHeader) = some aheadHeader ∧
      ¬ ∃ dag, node.store.loadDag roomyCrate Fixture.deployments 1000 = .ok dag := by
  obtain ⟨node, ran, -⟩ := run_recorded roomyCrate_collisionFree recorded_start aheadRun
  obtain ⟨stores, refuses⟩ := aheadRun_stores ran
  exact ⟨node, ran, by rw [stores, Table.lookup_singleton, if_pos rfl], refuses⟩

theorem reload_succeeds_once_clock_catches_up : ∃ node, start.run roomyCrate Fixture.deployments aheadRun = .ok node ∧
      ∃ dag, node.store.loadDag roomyCrate Fixture.deployments 2800 = .ok dag := by
  obtain ⟨node, ran, loads⟩ := reload_succeeds_iff roomyCrate_collisionFree Fixture.deployments aheadRun
  refine ⟨node, ran, (loads 2800).mpr fun hash header stored => ?_⟩
  rw [(aheadRun_stores ran).1, Table.lookup_singleton] at stored
  split at stored
  · cases stored
    decide
  · nomatch stored

end HeaderNode

end Rbtc.Node
