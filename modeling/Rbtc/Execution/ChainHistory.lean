import Rbtc.Execution.Connect
import Rbtc.Headers.Context

/-! Histories of a chain store: a disconnect takes back exactly the connect it undoes. -/

namespace Rbtc.Execution

open Foundation Bitcoin Headers Chainstate PreparedTransaction Fixture HeaderDag Mutation ChainStore
  List Option

variable {origin store next : ChainStore} {chain : List Block} {block : Block}

section
variable (crate : ChainCrate) (config : DeploymentConfig) (rules : List Block → BlockDeploymentContext)

/-- A successful connect of a block over the chain connected so far, whichever valid headers and time it is given. -/
def Connects (store : ChainStore) (chain : List Block) (block : Block) (next : ChainStore) : Prop :=
  ∃ (headers : HeaderDag) (now : Nat) (applied : AppliedBlock), headers.Valid crate.toHeaderCrate ∧
    headers.deployments = config ∧
    connectActiveBlock crate headers store block now (rules (block :: chain)) = .ok (next, applied)

/-- A successful disconnect of the execution tip, whichever valid headers it is given. -/
def Disconnects (store next : ChainStore) (parent : ExecutionTip) : Prop :=
  ∃ headers : HeaderDag, headers.Valid crate.toHeaderCrate ∧ headers.deployments = config ∧
    disconnectExecutionTip headers store = .ok (next, parent)

/-- The stores that successful calls reach, with the blocks then connected, newest first. -/
inductive Reached (origin : ChainStore) : ChainStore → List Block → Prop where
  | origin : Reached origin origin []
  | connect {store next : ChainStore} {chain : List Block} {block : Block} (reached : Reached origin store chain)
      (connects : Connects crate config rules store chain block next) : Reached origin next (block :: chain)
  | disconnect {store next : ChainStore} {chain : List Block} {parent : ExecutionTip}
      (reached : Reached origin store chain) (disconnects : Disconnects crate config store next parent) :
      Reached origin next chain.tail

/-- The stores that connects alone reach. -/
inductive Grown (origin : ChainStore) : ChainStore → List Block → Prop where
  | origin : Grown origin origin []
  | connect {store next : ChainStore} {chain : List Block} {block : Block} (grown : Grown origin store chain)
      (connects : Connects crate config rules store chain block next) : Grown origin next (block :: chain)

/-- A store in which only the genesis block is executed: it has no coin and no undo record. -/
structure GenesisOnly (store : ChainStore) : Prop where
  coins : store.coins = ∅
  tip : store.tip = ⟨0, crate.blockHash (crate.genesisHeader config.network)⟩
  undos : store.undos = ∅

/-- A block's transactions have ids of their own, and none makes a coin again that is still unspent, unless the
BIP30 rules are on to refuse or to overwrite it. -/
structure DistinctIds (deployments : BlockDeploymentContext) (coins : CoinTable) (block : Block) : Prop where
  nodup : (block.txdata.map crate.computeTxid).Nodup
  fresh : deployments.bip30Enforced = true ∨ deployments.bip30Overwrite = true ∨
    collisions crate block coins.lookup = []

variable {crate config rules} {store' before : ChainStore} {parent : ExecutionTip}

section
variable {deployments : BlockDeploymentContext} {coins : CoinTable} {keys : List OutPointKey}
  {context : BlockContext} {prepared : List PreparedTransaction} {executed : Preparing}

theorem DistinctIds.nodup_outputs (distinct : DistinctIds crate deployments coins block) :
    (block.txdata.flatMap (spendableOutputs crate)).Nodup := by
  refine nodup_flatMap.mpr ⟨fun transaction _ => ?_, (pairwise_map.mp distinct.nodup).imp fun apart => ?_⟩
  · have nodup := nodup_createdOutputs transaction (crate.computeTxid transaction) 0 0 0 false
    rwa [map_fst_createdOutputs] at nodup
  intro key member member'
  obtain ⟨_, -, rfl⟩ := mem_map.mp member
  obtain ⟨_, -, same⟩ := mem_map.mp member'
  exact apart (congrArg OutPointKey.txid same).symm

theorem DistinctIds.fresh_outputs (distinct : DistinctIds crate deployments coins block)
    (removed : overwritten crate block deployments coins.lookup = .ok keys) :
    ∀ key ∈ block.txdata.flatMap (spendableOutputs crate), (coins.eraseAll keys).lookup key = none := by
  have overwrites : ∀ key ∈ collisions crate block coins.lookup, key ∈ keys := by
    unfold overwritten at removed
    split at removed
    · next inactive =>
      obtain enforced | overwriting | nothing := distinct.fresh
      · simp [enforced] at inactive
      · simp [overwriting] at inactive
      · simp [nothing]
    split at removed
    · next nothing => simp [nothing]
    · next isCollisions =>
      split at removed
      · cases removed
        rw [isCollisions]
        exact fun _ => id
      · cases removed
  intro key member
  rw [Table.lookup_eraseAll]
  split
  · rfl
  · next kept =>
    by_contra present
    refine kept (overwrites key ?_)
    rw [collisions, mem_sortedKeys, Finset.mem_filter]
    exact ⟨mem_toFinset.mpr member, present⟩

theorem createdKeys_of_execution (execution : BlockExecution crate context block (block.txdata.map crate.computeTxid)
      coins prepared executed) :
    (prepared.map mutation).flatMap createdKeys = block.txdata.flatMap (spendableOutputs crate) := by
  have aligned : Forall₂ (fun entry (first : PreparedTransaction) => first.mutation.createdKeys =
      spendableOutputs crate entry) block.txdata prepared := by
    have executes := execution.executes.aligned
    rw [← map_prod_left_eq_zip, forall₂_map_left_iff] at executes
    refine executes.imp fun entry first prepares => ?_
    obtain ⟨_, prepares⟩ := prepares
    rw [createdKeys, mutation, prepares.created]
    exact map_fst_createdOutputs ..
  rw [flatMap_map, flatMap_def, flatMap_def]
  refine congrArg List.flatten (forall₂_eq_eq_eq ▸ ?_)
  exact forall₂_map_left_iff.mpr (forall₂_map_right_iff.mpr (aligned.flip.imp fun _ _ same => same))

/-- A block's mutations can be reverted when its outputs are new coins. -/
theorem DistinctIds.revertible {hidden : Finset OutPointKey} {final kept : CoinTable}
    (distinct : DistinctIds crate deployments coins block)
    (removed : overwritten crate block deployments coins.lookup = .ok keys)
    (execution : BlockExecution crate context block (block.txdata.map crate.computeTxid) (coins.eraseAll keys) prepared
      executed)
    (run : Run coins ∅ coins (blockMutations coins keys prepared) hidden final)
    (keeps : Keeps coins hidden final kept) :
    RevertibleAll kept (blockMutations coins keys prepared).reverse := by
  have removing := exception_run removed
  have outputs := createdKeys_of_execution execution
  have nothing : (exceptionOf coins keys).toList.flatMap createdKeys = [] := by
    unfold exceptionOf
    split <;> rfl
  obtain ⟨rfl, revertible, reverted⟩ := (removing.of_append run).revertible rfl (outputs ▸ distinct.nodup_outputs)
    (outputs ▸ distinct.fresh_outputs removed)
  obtain rfl := keeps.eq_shown
  rw [blockMutations, reverse_append, revertibleAll_append, reverted]
  exact ⟨revertible, (removing.revertible rfl (nothing ▸ nodup_nil) (nothing ▸ forall_mem_nil _)).2.1⟩

end

theorem executedParent_of_next {headers headers' : HeaderDag} (collisionFree : CollisionFree crate.toHeaderCrate)
    (valid : headers.Valid crate.toHeaderCrate) (valid' : headers'.Valid crate.toHeaderCrate)
    (sameDeployments : headers'.deployments = headers.deployments) {current : ExecutionTip} {height parentMtp : Nat}
    (next : nextActive crate headers block current = .ok (height, parentMtp))
    (isParent : executedParent headers' ⟨height, crate.blockHash block.header⟩ = .ok parent) : parent = current := by
  obtain ⟨⟨_, isActive, isTip⟩, added, ⟨_, isExpected, same⟩, -⟩ := nextActive_eq_ok next
  obtain ⟨_, _, found, parentFound, follows, rfl⟩ := executedParent_eq_ok.mp isParent
  obtain ⟨-, isNext⟩ := checkedAdd_eq_some.mp added
  obtain ⟨-, isHeight⟩ := checkedAdd_eq_some.mp follows
  obtain ⟨_, atTip, tipFound⟩ := bind_eq_some_iff.mp isActive
  obtain ⟨_, atNext, nextFound⟩ := bind_eq_some_iff.mp isExpected
  obtain ⟨entry, isEntry, -, below⟩ := valid.active.entry _ _ atNext
  cases nextFound.symm.trans isEntry
  rw [same, (valid.rooted.keyed _ _ nextFound).1] at found
  obtain rfl := valid.info_eq collisionFree valid' sameDeployments nextFound found
  have isBelow := below current.height isNext.symm
  rw [atTip, some.injEq] at isBelow
  rw [← isBelow] at parentFound
  refine ExecutionTip.ext (Nat.add_right_cancel (isHeight.trans isNext.symm)) ?_
  rw [(valid'.rooted.keyed _ _ parentFound).1, ← isTip, (valid.rooted.keyed _ _ tipFound).1]

section
variable {kept : CoinTable} {tip : ExecutionTip} {undos : List UtxoUndo}
  (retains : store.retainBlockUndo = true)
include retains

theorem lookup_extended : (store.extended kept tip undos).undos.lookup tip.hash = some undos := by
  rw [extended, if_pos retains]
  exact Table.lookup_insert_self _ _ _

theorem rewound_extended {coins : CoinTable} (restored : coins = store.coins)
    (absent : store.undos.lookup tip.hash = none) :
    (store.extended kept tip undos).rewound coins store.tip = store := by
  refine ChainStore.ext restored rfl ?_ rfl rfl rfl
  rw [rewound, extended, if_pos retains]
  exact Table.erase_insert_of_fresh absent

end

theorem Connects.disconnected (collisionFree : CollisionFree crate.toHeaderCrate)
    (retains : store.retainBlockUndo = true)
    (connects : Connects crate config rules store chain block next)
    (disconnects : Disconnects crate config next before parent) :
    before = store ∧ parent = store.tip ∧ before.undos.lookup next.tip.hash = none := by
  obtain ⟨_, _, _, valid, configured, connected⟩ := connects
  obtain ⟨_, valid', configured', disconnected⟩ := disconnects
  obtain ⟨height, _, keys, prepared, _, _, kept, connection, run, keeps, -, canExtend, isNext⟩ :=
    connectActiveBlock_eq_ok connected
  obtain ⟨rfl, -⟩ := Prod.mk.inj isNext
  obtain ⟨⟨-, -, isParent, revertible, -⟩, isBefore⟩ :=
    (disconnectExecutionTip_eq_ok (lookup_extended retains)).mp disconnected
  obtain rfl := executedParent_of_next collisionFree valid valid' (configured'.trans configured.symm) connection.next
    isParent
  obtain rfl : before = store :=
    isBefore.trans (rewound_extended retains (run.revertAll_eq keeps revertible) (canExtend.undo_absent retains))
  exact ⟨rfl, rfl, canExtend.undo_absent retains⟩

/-- A disconnect right after a connect succeeds and gives back the store, with any headers that hold the block. -/
theorem Connects.disconnects {headers : HeaderDag} (collisionFree : CollisionFree crate.toHeaderCrate)
    (retains : store.retainBlockUndo = true) (connects : Connects crate config rules store chain block next)
    (valid' : headers.Valid crate.toHeaderCrate) (configured' : headers.deployments = config)
    (holds : next.tip.hash ∈ headers.headers) (unassumed : next.assumedSnapshotBase ≠ some next.tip)
    (distinct : DistinctIds crate (rules (block :: chain)) store.coins block) :
    disconnectExecutionTip headers next = .ok (store, store.tip) := by
  obtain ⟨_, _, _, valid, configured, connected⟩ := connects
  obtain ⟨height, _, keys, prepared, _, _, kept, connection, run, keeps, ages, canExtend, isNext⟩ :=
    connectActiveBlock_eq_ok connected
  obtain ⟨rfl, -⟩ := Prod.mk.inj isNext
  obtain ⟨-, added, ⟨expected, isExpected, same⟩, -⟩ := nextActive_eq_ok connection.next
  obtain ⟨-, isNext⟩ := checkedAdd_eq_some.mp added
  obtain ⟨info, found⟩ := Table.mem_iff.mp holds
  obtain ⟨_, atNext, nextFound⟩ := bind_eq_some_iff.mp isExpected
  obtain ⟨_, isEntry, isHeight, -⟩ := valid.active.entry _ _ atNext
  cases nextFound.symm.trans isEntry
  have sameDeployments := configured'.trans configured.symm
  obtain rfl : expected = info := by
    change headers.headers.lookup (crate.blockHash block.header) = some info at found
    rw [same, (valid.rooted.keyed _ _ nextFound).1] at found
    exact valid.info_eq collisionFree valid' sameDeployments nextFound found
  obtain ⟨above, parentFound, admissible⟩ := valid'.rooted.parent_of_pos found (by omega)
  have isParent : executedParent headers ⟨height, crate.blockHash block.header⟩ = .ok ⟨above.height, above.hash⟩ := by
    refine executedParent_eq_ok.mpr ⟨_, _, found, parentFound, checkedAdd_eq_some.mpr ⟨?_, ?_⟩, rfl⟩
    · exact admissible.height_eq ▸ admissible.fits
    · exact admissible.height_eq.symm.trans isHeight
  rw [executedParent_of_next collisionFree valid valid' sameDeployments connection.next isParent] at isParent
  have revertible := distinct.revertible connection.removed connection.execution run keeps
  have notGenesis : height ≠ 0 := fun zero => Nat.succ_ne_zero _ (isNext.trans zero)
  exact (disconnectExecutionTip_eq_ok (lookup_extended retains)).mpr
    ⟨⟨notGenesis, unassumed, isParent, revertible, ages⟩,
      (rewound_extended retains (run.revertAll_eq keeps revertible) (canExtend.undo_absent retains)).symm⟩

theorem Grown.undos (grown : Grown crate config rules origin store chain) :
    store.retainBlockUndo = origin.retainBlockUndo ∧ (origin.retainBlockUndo = false → store.undos = origin.undos) := by
  induction grown with
  | origin => exact ⟨rfl, fun _ => rfl⟩
  | connect _ connects ih =>
    obtain ⟨_, _, _, -, -, connected⟩ := connects
    obtain ⟨_, _, _, _, _, _, _, -, -, -, -, -, isNext⟩ := connectActiveBlock_eq_ok connected
    obtain ⟨rfl, -⟩ := Prod.mk.inj isNext
    refine ⟨ih.1, fun drops => ?_⟩
    rw [extended, if_neg (by rw [ih.1, drops]; exact Bool.false_ne_true)]
    exact ih.2 drops

theorem Reached.grown (collisionFree : CollisionFree crate.toHeaderCrate) (genesis : GenesisOnly crate config origin)
    (reached : Reached crate config rules origin store chain) : Grown crate config rules origin store chain := by
  induction reached with
  | origin => exact .origin
  | connect _ connects ih => exact ih.connect connects
  | disconnect _ disconnects ih =>
    cases ih with
    | origin =>
      obtain ⟨_, -, -, disconnected⟩ := disconnects
      obtain ⟨_, above, -⟩ := bind_eq_ok.mp disconnected
      exact absurd (congrArg ExecutionTip.height genesis.tip) (ensure_eq_ok.mp above)
    | connect grown connects =>
      cases retains : origin.retainBlockUndo with
      | true =>
        obtain ⟨rfl, -⟩ := connects.disconnected collisionFree (grown.undos.1.trans retains) disconnects
        exact grown
      | false =>
        obtain ⟨_, -, -, disconnected⟩ := disconnects
        have undos := (grown.connect connects).undos.2 retains
        rw [genesis.undos] at undos
        simp [disconnectExecutionTip, blockUndo, undos] at disconnected

theorem alike_of_executes {context context' : BlockContext} {index : Nat}
    {preparing preparing' final final' : Preparing} {transactions : List (Transaction × Txid)}
    {prepared prepared' : List PreparedTransaction}
    (executes : Executes crate context block index preparing transactions prepared final)
    (executes' : Executes crate context' block index preparing' transactions prepared' final')
    (sameHeight : context.height = context'.height) (sameTime : context.creationMtp = context'.creationMtp) :
    Forall₂ (Alike Utxo.untouched) (prepared.map mutation) (prepared'.map mutation) := by
  induction executes generalizing preparing' prepared' with
  | nil =>
    cases executes'
    exact .nil
  | cons result _ _ ih =>
    cases executes' with
    | cons result' _ remaining' =>
      have prepares := prepares_of_ok result
      have prepares' := prepares_of_ok result'
      refine .cons ⟨?_, ?_⟩ (ih remaining')
      · rw [prepares.spentKeys, prepares'.spentKeys, prepares.spent, prepares'.spent]
      have height : (context.transaction block).height = (context'.transaction block).height := sameHeight
      have time : (context.transaction block).creationMtp = (context'.transaction block).creationMtp := sameTime
      rw [mutation, mutation, prepares.created, prepares'.created, height,
        time, createdOutputs, createdOutputs, List.map_map, List.map_map]
      rfl

variable {deployments : BlockDeploymentContext}

theorem overwritten_congr {coins coins' : CoinMap}
    (same : SameCoins coins coins') :
    overwritten crate block deployments coins = overwritten crate block deployments coins' := by
  have found : ∀ key, coins key ≠ none ↔ coins' key ≠ none := fun key => not_congr (same.eq_none key)
  simp [overwritten, collisions, found]

theorem exception_alike {coins coins' : CoinTable}
    {keys : List OutPointKey} (removed : overwritten crate block deployments coins.lookup = .ok keys)
    (removed' : overwritten crate block deployments coins'.lookup = .ok keys) :
    Forall₂ (Alike Utxo.untouched) (exceptionOf coins keys).toList (exceptionOf coins' keys).toList := by
  unfold exceptionOf
  split
  · exact .nil
  · refine .cons ⟨?_, rfl⟩ .nil
    exact (Table.map_fst_entriesAt (overwritten_nodup removed).2).trans
      (Table.map_fst_entriesAt (overwritten_nodup removed').2).symm

theorem Connects.same_coins (collisionFree : CollisionFree crate.toHeaderCrate)
    (connects : Connects crate config rules store chain block next) {next' : ChainStore}
    (connects' : Connects crate config rules store' chain block next') (sameTip : store.tip = store'.tip)
    (same : SameCoins store.coins.lookup store'.coins.lookup) :
    next.tip = next'.tip ∧ SameCoins next.coins.lookup next'.coins.lookup := by
  obtain ⟨_, _, _, valid, configured, connected⟩ := connects
  obtain ⟨_, _, _, valid', configured', connected'⟩ := connects'
  obtain ⟨_, parentMtp, keys, prepared, _, _, _, connection, run, keeps, -, -, isNext⟩ :=
    connectActiveBlock_eq_ok connected
  obtain ⟨_, parentMtp', keys', prepared', _, _, _, connection', run', keeps', -, -, isNext'⟩ :=
    connectActiveBlock_eq_ok connected'
  obtain ⟨rfl, -⟩ := Prod.mk.inj isNext
  obtain ⟨rfl, -⟩ := Prod.mk.inj isNext'
  obtain ⟨-, added, -, isTime⟩ := nextActive_eq_ok connection.next
  obtain ⟨-, added', -, isTime'⟩ := nextActive_eq_ok connection'.next
  rw [← sameTip] at added' isTime'
  obtain rfl := mem_unique added added'
  obtain rfl : parentMtp = parentMtp' := by
    obtain ⟨_, found, -⟩ := map_eq_some_iff.mp isTime
    obtain ⟨_, found', -⟩ := map_eq_some_iff.mp isTime'
    have sameDeployments := configured'.trans configured.symm
    obtain rfl := valid.info_eq collisionFree valid' sameDeployments found found'
    rw [medianTimePast_local collisionFree valid valid' sameDeployments found found'] at isTime'
    exact mem_unique isTime isTime'
  obtain rfl : keys = keys' := by
    have removed := connection.removed
    have removed' := connection'.removed
    rw [overwritten_congr same] at removed
    exact Except.ok.inj (removed.symm.trans removed')
  have alike : Forall₂ (Alike Utxo.untouched) (blockMutations store.coins keys prepared)
      (blockMutations store'.coins keys prepared') := by
    refine rel_append (exception_alike connection.removed connection'.removed) ?_
    exact alike_of_executes connection.execution.executes connection'.execution.executes rfl rfl
  obtain ⟨rfl, agree⟩ := run.agree run' alike same
  exact ⟨rfl, keeps.agree keeps' same agree⟩

theorem Grown.same_coins (collisionFree : CollisionFree crate.toHeaderCrate) (genesis : GenesisOnly crate config origin)
    {origin' : ChainStore} (genesis' : GenesisOnly crate config origin')
    (grown : Grown crate config rules origin store chain)
    (grown' : Grown crate config rules origin' store' chain) :
    store.tip = store'.tip ∧ SameCoins store.coins.lookup store'.coins.lookup := by
  induction grown generalizing store' with
  | origin =>
    cases grown'
    exact ⟨genesis.tip.trans genesis'.tip.symm, fun key => by rw [genesis.coins, genesis'.coins]⟩
  | connect _ connects ih =>
    cases grown' with
    | connect grown' connects' =>
      obtain ⟨sameTip, same⟩ := ih grown'
      exact connects.same_coins collisionFree connects' sameTip same

end

/-! A chain whose first coinbase output matures; the next block overwrites the other one, spends the mature coin
and spends what that makes. -/

def spendingCrate : ChainCrate :=
  { pairingCrate with
    computeTxid := fun transaction => ⟨transaction.lockTime⟩
    hashPair := (· * ·) }

def overwritingRules (chain : List Block) : BlockDeploymentContext :=
  ⟨0, false, false, false, none, false, true, blockSubsidyWithInterval chain.length ⟨150, by decide⟩⟩

def emptyStore : ChainStore := ⟨∅, ⟨0, ⟨2⟩⟩, ∅, true, none, none⟩

def mint (outputs : List TxOut) : Transaction := ⟨1, 0, [⟨.null, [0, 0], 0, []⟩], outputs⟩

def passOn (id : Nat) (coin : OutPointKey) (value : Nat) : Transaction := ⟨1, id, [⟨coin, [], 0, []⟩], [⟨value, []⟩]⟩

def mintingChain : List Block := (range 100).reverse.map fun index =>
  ⟨header (2 * (index + 1)), [mint (if index = 0 then [⟨20, []⟩, ⟨30, []⟩] else [⟨0, [0x6a]⟩])]⟩

def spendingBlock : Block :=
  ⟨header 202, [mint [⟨0, [0x6a]⟩, ⟨40, []⟩], passOn 1 ⟨⟨0⟩, 0⟩ 18, passOn 2 ⟨⟨1⟩, 0⟩ 15]⟩

/-- The store after the blocks of a chain, newest first, are connected. -/
def connectAll (headers : HeaderDag) : List Block → Outcome BlockExecutionError ChainStore
  | [] => .ok emptyStore
  | block :: chain => do
    let store ← connectAll headers chain
    let (next, _) ← connectActiveBlock spendingCrate headers store block 0 (overwritingRules (block :: chain))
    return next

def spendAt (headers : HeaderDag) (store : ChainStore) (now : Nat) :
    Outcome BlockExecutionError (ChainStore × AppliedBlock) :=
  connectActiveBlock spendingCrate headers store spendingBlock now (overwritingRules (spendingBlock :: mintingChain))

/-- Whether a chain can be connected, and at two times the spending block over it. -/
def spends (chain : List Block) (headers : HeaderDag) : Bool :=
  match connectAll headers chain with
  | .ok store => [0, 1].all fun now => match spendAt headers store now with
    | .ok (next, _) => (headers.headers.lookup next.tip.hash).isSome && next.assumedSnapshotBase.isNone
    | .error _ => false
  | .error _ => false

theorem emptyStore_genesis : GenesisOnly spendingCrate Fixture.deployments emptyStore := ⟨rfl, by decide, rfl⟩

theorem reached_of_connectAll {headers : HeaderDag} (valid : headers.Valid spendingCrate.toHeaderCrate)
    (configured : headers.deployments = Fixture.deployments) (connected : connectAll headers chain = .ok store) :
    Reached spendingCrate Fixture.deployments overwritingRules emptyStore store chain := by
  induction chain generalizing store with
  | nil =>
    cases connected
    exact .origin
  | cons block chain ih =>
    simp only [connectAll, bind_eq_ok, pure_eq_ok] at connected
    obtain ⟨_, below, ⟨_, applied⟩, connects, rfl⟩ := connected
    exact .connect (ih below) ⟨headers, 0, applied, valid, configured, connects⟩

theorem spends_fixture : (Fixture.origin.run crate ((branch 0 101).map .insert)).toOption.all (spends mintingChain) =
    true := by
  decide +kernel

theorem spendAt_eq_ok : ∃ (headers : HeaderDag) (store : ChainStore), headers.Valid spendingCrate.toHeaderCrate ∧
    headers.deployments = Fixture.deployments ∧
    Reached spendingCrate Fixture.deployments overwritingRules emptyStore store mintingChain ∧
    ∀ now ∈ [0, 1], ∃ next applied, spendAt headers store now = .ok (next, applied) ∧ next.tip.hash ∈ headers.headers ∧
      next.assumedSnapshotBase = none := by
  obtain ⟨headers, ran, valid, configured⟩ := run_valid (valid_withDeployments crate Fixture.deployments)
    ((branch 0 101).map .insert)
  have accepted := spends_fixture
  rw [Fixture.origin, ran, Except.toOption, all_some, spends] at accepted
  cases connected : connectAll headers mintingChain with
  | error _ => simp [connected] at accepted
  | ok store =>
    refine ⟨headers, store, valid, configured, reached_of_connectAll valid configured connected, fun now isNow => ?_⟩
    rw [connected] at accepted
    have here := all_eq_true.mp accepted now isNow
    cases spent : spendAt headers store now with
    | error _ => simp [spent] at here
    | ok result =>
      simp only [spent, Bool.and_eq_true, isSome_iff_exists, isNone_iff_eq_none] at here
      exact ⟨result.1, result.2, rfl, Table.mem_iff.mpr here.1, here.2⟩

/-- A disconnect restores the store its connect started from, and succeeds if the headers hold the block; the
coins depend on the connected blocks alone. -/
theorem execution_is_path_independent (crate : ChainCrate) (config : DeploymentConfig)
    (rules : List Block → BlockDeploymentContext) (collisionFree : CollisionFree crate.toHeaderCrate)
    (origin origin' : ChainStore) (genesis : GenesisOnly crate config origin)
    (genesis' : GenesisOnly crate config origin')
    (retains : origin.retainBlockUndo = true) :
    (∀ store chain block next before parent, Reached crate config rules origin store chain →
      Connects crate config rules store chain block next → Disconnects crate config next before parent →
      before = store ∧ parent = store.tip ∧ before.undos.lookup next.tip.hash = none) ∧
    (∀ store chain block next headers, Reached crate config rules origin store chain →
      Connects crate config rules store chain block next → headers.Valid crate.toHeaderCrate →
      headers.deployments = config → next.tip.hash ∈ headers.headers → next.assumedSnapshotBase ≠ some next.tip →
      DistinctIds crate (rules (block :: chain)) store.coins block →
      disconnectExecutionTip headers next = .ok (store, store.tip)) ∧
    ∀ store store' chain, Reached crate config rules origin store chain →
      Reached crate config rules origin' store' chain → SameCoins store.coins.lookup store'.coins.lookup := by
  refine ⟨fun store chain block next before parent reached connects disconnects => ?_,
    fun store chain block next headers reached connects valid configured holds unassumed distinct => ?_,
    fun store store' chain reached reached' => ?_⟩
  · have grown := reached.grown collisionFree genesis
    exact connects.disconnected collisionFree (grown.undos.1.trans retains) disconnects
  · have grown := reached.grown collisionFree genesis
    exact connects.disconnects collisionFree (grown.undos.1.trans retains) valid configured holds unassumed distinct
  · have grown := reached.grown collisionFree genesis
    exact (grown.same_coins collisionFree genesis genesis' (reached'.grown collisionFree genesis')).2

theorem execution_is_path_independent_of_spend : ∃ headers store next applied next' applied',
    Reached spendingCrate Fixture.deployments overwritingRules emptyStore store mintingChain ∧
      spendAt headers store 0 = .ok (next, applied) ∧ disconnectExecutionTip headers next = .ok (store, store.tip) ∧
      spendAt headers store 1 = .ok (next', applied') ∧ SameCoins next.coins.lookup next'.coins.lookup := by
  obtain ⟨headers, store, valid, configured, reached, connects⟩ := spendAt_eq_ok
  obtain ⟨next, applied, connected, holds, unassumed⟩ := connects 0 (by decide)
  obtain ⟨next', applied', connected', -⟩ := connects 1 (by decide)
  obtain ⟨-, disconnects, sameCoins⟩ := execution_is_path_independent spendingCrate Fixture.deployments overwritingRules
    collisionFree emptyStore emptyStore emptyStore_genesis emptyStore_genesis rfl
  have first : Connects spendingCrate Fixture.deployments overwritingRules store mintingChain spendingBlock next :=
    ⟨headers, 0, applied, valid, configured, connected⟩
  have disconnected : disconnectExecutionTip headers next = .ok (store, store.tip) :=
    disconnects store mintingChain spendingBlock next headers reached first valid configured holds
      (unassumed ▸ nofun) ⟨by decide, .inr (.inl rfl)⟩
  -- The second history takes the block back and connects it again at another time.
  have again := ((reached.connect first).disconnect ⟨headers, valid, configured, disconnected⟩).connect
    ⟨headers, 1, applied', valid, configured, connected'⟩
  exact ⟨headers, store, next, applied, next', applied', reached, connected, disconnected, connected',
    sameCoins next next' (spendingBlock :: mintingChain) (reached.connect first) again⟩

variable {crate : ChainCrate} {config : DeploymentConfig}
  {rules : List Block → BlockDeploymentContext}

theorem Connects.total_le (connects : Connects crate config rules store chain block next) :
    next.coins.total coinValue ≤ store.coins.total coinValue + (rules (block :: chain)).subsidySats := by
  obtain ⟨_, _, _, -, -, connected⟩ := connects
  obtain ⟨_, _, keys, _, _, _, kept, connection, run, keeps, -, -, isNext⟩ := connectActiveBlock_eq_ok connected
  obtain ⟨rfl, -⟩ := Prod.mk.inj isNext
  have moved := run.total_le coinValue keeps
  have created : _ ≤ (rules (block :: chain)).subsidySats + _ := connection.execution.created_le
  have nothing : ((exceptionOf store.coins keys).toList.map fun mutation => carried coinValue mutation.created).sum =
      0 := by
    unfold exceptionOf
    split <;> rfl
  simp only [blockMutations, List.map_append, List.sum_append, List.map_map, Function.comp_def] at moved
  change kept.total coinValue ≤ _
  omega

def subsidies (interval : HalvingInterval) (count : Nat) : Nat :=
  ((List.range count).map fun index => blockSubsidyWithInterval (index + 1) interval).sum

theorem Grown.total_le {interval : HalvingInterval} (genesis : GenesisOnly crate config origin)
    (halves : ∀ block chain, (rules (block :: chain)).subsidySats =
      blockSubsidyWithInterval (chain.length + 1) interval)
    (grown : Grown crate config rules origin store chain) :
    store.coins.total coinValue ≤ subsidies interval chain.length := by
  induction grown with
  | origin =>
    rw [genesis.coins]
    exact Nat.zero_le _
  | connect _ connects _ =>
    have added := connects.total_le
    rw [halves] at added
    rw [subsidies, length_cons, range_succ, map_append, sum_append, map_singleton, sum_singleton, ← subsidies]
    omega

/-- The 64-bit sums of an executed block are the exact ones. -/
structure ExactSums (block : Block) (subsidySats : Nat) (prepared : List PreparedTransaction) (fees : Nat) : Prop where
  totals : Forall₂ (fun (transaction : Transaction) (entry : PreparedTransaction) =>
    entry.validated.inputValueSats = (entry.prevouts.map Utxo.valueSats).sum ∧
      (entry.prevouts.map Utxo.valueSats).sum < 2 ^ 64 ∧
      entry.validated.outputValueSats = transaction.outputValue ∧ transaction.outputValue < 2 ^ 64)
        block.txdata prepared
  summed : fees = (prepared.tail.map fee).sum
  claim : subsidySats + fees < 2 ^ 64

theorem exactSums_of_execution {context : BlockContext} {coins : CoinTable}
    {prepared : List PreparedTransaction} {executed : Preparing} {ids : List Txid}
    (execution : BlockExecution crate context block ids coins prepared executed) :
    ExactSums block context.subsidySats prepared executed.totals.fees := by
  obtain ⟨_, _, isPrepared, -, fees, fits, -⟩ := execution.accounts
  refine ⟨?_, by rw [isPrepared, tail_cons, fees], by rw [fees]; exact fits⟩
  have transactions : (block.txdata.zip ids).map Prod.fst = block.txdata := map_fst_zip execution.lengths.ge
  rw [← transactions, forall₂_map_left_iff]
  refine execution.executes.aligned.imp fun entry first prepares => ?_
  obtain ⟨_, prepares⟩ := prepares
  have limit : maxMoneySats < 2 ^ 64 := by decide
  refine ⟨prepares.inputValue, ?_, prepares.outputValue, ?_⟩
  · rw [← prepares.inputValue]
    exact prepares.inputValue_le.trans_lt limit
  · rw [← prepares.outputValue]
    exact prepares.outputValue_le.trans_lt limit

/-- The coins are worth at most the subsidies of the connected blocks, and no sum overflows. -/
theorem no_inflation (crate : ChainCrate) (config : DeploymentConfig) (rules : List Block → BlockDeploymentContext)
    (interval : HalvingInterval) (collisionFree : CollisionFree crate.toHeaderCrate) (origin : ChainStore)
    (genesis : GenesisOnly crate config origin)
    (halves : ∀ block chain, (rules (block :: chain)).subsidySats =
      blockSubsidyWithInterval (chain.length + 1) interval) :
    (∀ store chain, Reached crate config rules origin store chain →
      store.coins.total coinValue ≤ subsidies interval chain.length) ∧
    (∀ store chain block next, Connects crate config rules store chain block next → next.coins.total coinValue ≤
        store.coins.total coinValue + blockSubsidyWithInterval (chain.length + 1) interval) ∧
    ∀ headers store block now deployments result,
      connectActiveBlock crate headers store block now deployments = .ok result →
      ∃ height parentMtp keys prepared executed,
        Connection crate headers store block now deployments height parentMtp keys prepared executed ∧
          ExactSums block deployments.subsidySats prepared executed.totals.fees := by
  refine ⟨fun store chain reached => (reached.grown collisionFree genesis).total_le genesis halves,
    fun store chain block next connects => halves block chain ▸ connects.total_le,
    fun headers store block now deployments result connected => ?_⟩
  obtain ⟨height, parentMtp, keys, prepared, executed, _, _, connection, -⟩ := connectActiveBlock_eq_ok connected
  exact ⟨height, parentMtp, keys, prepared, executed, connection, exactSums_of_execution connection.execution⟩

theorem no_inflation_after_spend : ∃ headers store next applied,
    Reached spendingCrate Fixture.deployments overwritingRules emptyStore store mintingChain ∧
      spendAt headers store 0 = .ok (next, applied) ∧ next.coins.total coinValue ≤ subsidies ⟨150, by decide⟩ 101 := by
  obtain ⟨headers, store, valid, configured, reached, connects⟩ := spendAt_eq_ok
  obtain ⟨next, applied, connected, -⟩ := connects 0 (by decide)
  refine ⟨headers, store, next, applied, reached, connected, ?_⟩
  exact (no_inflation spendingCrate Fixture.deployments overwritingRules ⟨150, by decide⟩ collisionFree emptyStore
    emptyStore_genesis fun _ _ => rfl).1 next (spendingBlock :: mintingChain)
    (reached.connect ⟨headers, 0, applied, valid, configured, connected⟩)

end Rbtc.Execution
