import Rbtc.Execution.Overlay

/-! Connecting the next active-chain block and disconnecting the execution tip (`block_execution.rs`), which
does to the store what the block does to the coin set. -/

namespace Rbtc.Execution

open Foundation Bitcoin Headers Chainstate OverlayState

structure BlockDeploymentContext where
  scriptFlags : Nat
  bip34Active : Bool
  csvActive : Bool
  segwitActive : Bool
  signetChallenge : Option (List UInt8)
  bip30Enforced : Bool
  bip30Overwrite : Bool
  subsidySats : Nat
  deriving DecidableEq, Repr

inductive BlockExecutionError where
  | tipNotActive (height : Nat) (hash : BlockHash)
  | noNextHeader (height : Nat)
  | unexpectedBlock (expected actual : BlockHash)
  | missingParentMtp (hash : BlockHash)
  | block (error : BlockError)
  | chainStore (error : ChainStoreError)
  | rollback (error : UtxoError)
  | missingExecutedHeader (hash : BlockHash)
  | disconnectGenesis
  | disconnectAssumedSnapshotBase (height : Nat) (hash : BlockHash)
  | missingUndo (hash : BlockHash)
  | bip30Collision (outpoint : OutPointKey)
  | deploymentCount (blocks deployments : Nat)
  | transactionIdCount
  | utxoPrefetchMismatch
  | undo (error : UndoStoreError)
  | execution (error : ExecutionStoreError)
  | inconsistentTransition
  | transitionTipMismatch (actualHeight : Nat) (actualHash : BlockHash)
  deriving DecidableEq, Repr

def liftBlockFault : Fault BlockError → Fault BlockExecutionError
  | .refused error => .refused (.block error)
  | .panicked => .panicked

def refusing {α ε : Type} (embed : ε → BlockExecutionError) (result : Except ε α) :
    Outcome BlockExecutionError α :=
  result.mapError fun error => .refused (embed error)

section
variable (crate : ChainCrate)

def spendableOutputs (transaction : Transaction) : List OutPointKey :=
  (transaction.output.zipIdx.filter fun entry => !isUnspendable entry.1.scriptPubkey).map fun entry =>
    ⟨crate.computeTxid transaction, entry.2⟩

def readCollisions : List OutPointKey → Finset OutPointKey → Query OutPointKey (Option Utxo) (Finset OutPointKey)
  | [], collisions => pure collisions
  | outpoint :: rest, collisions => do
      let found ← Query.read outpoint
      readCollisions rest (if found.isSome then insert outpoint collisions else collisions)

def blockOutputCollisions (block : Block) : Query OutPointKey (Option Utxo) (List OutPointKey) := do
  let collisions ← readCollisions (block.txdata.flatMap (spendableOutputs crate)) ∅
  return sortedKeys collisions

end

variable (crate : ChainCrate) (headers : HeaderDag)

def nextActive (block : Block) (current : ExecutionTip) : Outcome BlockExecutionError (Nat × Nat) := do
  ensure (∃ header ∈ headers.activeHeaderAt current.height, header.hash = current.hash)
    (.refused (.tipNotActive current.height current.hash))
  let nextHeight ← require (checkedAdd 32 current.height 1) (.refused (.noNextHeader current.height))
  let expected ← require (headers.activeHeaderAt nextHeight) (.refused (.noNextHeader current.height))
  let actual := crate.blockHash block.header
  ensure (actual = expected.hash) (.refused (.unexpectedBlock expected.hash actual))
  let parentMtp ← require (headers.medianTimePast current.hash)
    (.refused (.missingParentMtp current.hash))
  return (nextHeight, parentMtp)

/-- The BIP30 rules on a block's overlay: an exception block removes the coins it overwrites. -/
def applyBip30Rules (base : CoinMap) (block : Block)
    (deployments : BlockDeploymentContext) (overlay : OverlayState) :
    Outcome BlockExecutionError (Option UtxoUndo × OverlayState) :=
  if !deployments.bip30Enforced && !deployments.bip30Overwrite then .ok (none, overlay)
  else
    let (collisions, loaded) := (blockOutputCollisions crate block).runOn (load base) overlay
    match collisions with
    | [] => .ok (none, loaded)
    | first :: _ =>
      if deployments.bip30Overwrite then do
        let (undo, next) ← refusing .rollback (loaded.applyWithUndo base collisions [])
        return (some undo, next)
      else .error (.refused (.bip30Collision first))

def validateStructure (block : Block) (height : Nat) (deployments : BlockDeploymentContext) :
    Except BlockError Unit := do
  let _ ← validateBlockStructureWithDeploymentsAndTxids crate block height deployments.bip34Active
    deployments.segwitActive deployments.signetChallenge

def blockContext (deployments : BlockDeploymentContext) (height now parentMtp : Nat) : BlockContext :=
  { height
    now
    creationMtp := parentMtp
    scriptFlags := deployments.scriptFlags
    csvActive := deployments.csvActive
    subsidySats := deployments.subsidySats }

/-- Applies a block to an overlay and gives its undo lists and the overlay left, scripts verified. -/
def validateActiveBlockInner (base : CoinMap) (block : Block)
    (current : ExecutionTip) (now : Nat) (deployments : BlockDeploymentContext) :
    Outcome BlockExecutionError (AppliedBlock × OverlayState) := do
  let (nextHeight, parentMtp) ← nextActive crate headers block current
  let (exceptionUndo, overlay) ← applyBip30Rules crate base block deployments .empty
  refusing .block (validateStructure crate block nextHeight deployments)
  let (final, result) := applyPrevalidatedBlockWithDeploymentsInner crate (utxoStore base)
    block none (blockContext deployments nextHeight now parentMtp) false overlay
  let (applied, _) ← result.mapError liftBlockFault
  return (⟨applied.hash, exceptionUndo.toList ++ applied.transactionUndos⟩, final)

def validateActiveBlock (base : CoinMap) (block : Block) (current : ExecutionTip)
    (now : Nat) (deployments : BlockDeploymentContext) :
    Outcome BlockExecutionError (AppliedBlock × UtxoChanges) := do
  let (applied, overlay) ← validateActiveBlockInner crate headers base block current now deployments
  let changes ← refusing .rollback overlay.netChanges
  return (applied, changes)

/-- Connects the next block of the active chain. -/
def connectActiveBlock (store : ChainStore) (block : Block) (now : Nat) (deployments : BlockDeploymentContext) :
    Outcome BlockExecutionError (ChainStore × AppliedBlock) := do
  let current := store.executionTip
  let (applied, transition) ← validateActiveBlock crate headers store.coins.lookup block current now
    deployments
  let nextTip : ExecutionTip := ⟨current.height + 1, applied.hash⟩
  let (committed, _) ← refusing .chainStore (store.commitConnect current.hash nextTip transition.spent
    transition.created applied.transactionUndos)
  return (committed, applied)

def executedParent (current : ExecutionTip) : Outcome BlockExecutionError ExecutionTip := do
  let currentHeader ← require (headers.headers.lookup current.hash)
    (.refused (.missingExecutedHeader current.hash))
  let parentHash := currentHeader.header.prevBlockhash
  let parent ← require (headers.headers.lookup parentHash)
    (.refused (.missingExecutedHeader parentHash))
  ensure (checkedAdd 32 parent.height 1 = some current.height) (.refused (.missingExecutedHeader parentHash))
  return ⟨parent.height, parent.hash⟩

/-- Takes the last connected block back. -/
def disconnectExecutionTip (store : ChainStore) :
    Outcome BlockExecutionError (ChainStore × ExecutionTip) := do
  let current := store.executionTip
  ensure (current.height ≠ 0) (.refused .disconnectGenesis)
  ensure (store.assumedSnapshotBase ≠ some current)
    (.refused (.disconnectAssumedSnapshotBase current.height current.hash))
  let parentTip ← executedParent headers current
  let transactionUndos ← require (store.blockUndo current.hash) (.refused (.missingUndo current.hash))
  let (overlay, result) := disconnectBlock (utxoStore store.coins.lookup)
    ⟨current.hash, transactionUndos⟩ .empty
  refusing .rollback result
  let transition ← refusing .rollback overlay.netChanges
  let (committed, _) ← refusing .chainStore (store.commitDisconnect current parentTip transition.spent
    transition.created transactionUndos)
  return (committed, parentTip)

def appliedOf (prepared : PreparedTransaction) : AppliedTransaction :=
  { txid := prepared.validated.txid
    inputValueSats := prepared.validated.inputValueSats
    outputValueSats := prepared.validated.outputValueSats
    sigopCost := prepared.validated.sigopCost
    undo := undoOf prepared.mutation }

variable {base : CoinTable} {headers : HeaderDag} {store : ChainStore}

section
variable {crate : ChainCrate} {context : BlockContext} {block : Block}
  {coins : CoinTable} {hidden : Finset OutPointKey} {state : OverlayState}

/-- A transaction is prepared on the coins shown, its spent coins are cached, and the fresh-output
path writes it. -/
theorem applyTransaction_eq (overlays : Overlays base hidden state coins) (transaction : Transaction) (txid : Txid) :
    ∃ read, Overlays base hidden read coins ∧
      (∀ prepared, prepareOn crate context block coins.lookup transaction txid = .ok prepared →
        ∀ key ∈ prepared.spent, read.cached key ≠ none) ∧
      applyTransactionWithDeferredScripts crate (utxoStore base.lookup)
          (context.transaction block) transaction txid state =
        match prepareOn crate context block coins.lookup transaction txid with
        | .error error => (read, .error error)
        | .ok prepared =>
          match read.applyWithUndoFreshOutputsFromPrevouts prepared.spent prepared.prevouts
              prepared.created with
          | .error error => (read, .error (.utxo error))
          | .ok (undo, next) => (next, .ok ({ appliedOf prepared with undo }, prepared.prevouts)) := by
  have answers := Overlays.answers base coins hidden
  obtain ⟨value, kept⟩ := answers.runOn (prepareTransactionWithContext crate (context.transaction block)
    transaction (some txid) false).run overlays
  refine ⟨_, kept, fun prepared result key member => ?_, ?_⟩
  · apply answers.runOn_knows (load_retains base.lookup) _ overlays
    exact .inr (asked_prepare result key member)
  have isPrepared : Query.run coins.lookup (prepareTransactionWithContext crate
      (context.transaction block) transaction (some txid) false).run =
    prepareOn crate context block coins.lookup transaction txid := rfl
  unfold applyTransactionWithDeferredScripts utxoStore
  simp only [value, isPrepared]
  cases prepareOn crate context block coins.lookup transaction txid with
  | error _ => rfl
  | ok prepared =>
    dsimp only
    generalize applyWithUndoFreshOutputsFromPrevouts _ prepared.spent prepared.prevouts prepared.created = written
    cases written <;> rfl

variable {transaction : Transaction} {next : OverlayState} {index : Nat}
  {txid : Txid} {preparing : Preparing} {applying : Applying} {final : OverlayState}

theorem applyTransaction_eq_ok (overlays : Overlays base hidden state coins) {result : AppliedTransaction × List Utxo}
    (applies : applyTransactionWithDeferredScripts crate (utxoStore base.lookup)
      (context.transaction block) transaction txid state = (next, .ok result)) :
    ∃ prepared hides, prepareOn crate context block coins.lookup transaction txid = .ok prepared ∧
      result = (appliedOf prepared, prepared.prevouts) ∧ prepared.mutation.Valid base hides coins ∧
      Disjoint hidden hides ∧ Overlays base (hidden ∪ hides) next (prepared.mutation.apply coins) := by
  obtain ⟨read, kept, known, equation⟩ := applyTransaction_eq overlays transaction txid
  rw [equation] at applies
  cases result' : prepareOn crate context block coins.lookup transaction txid with
  | error error => simp [result'] at applies
  | ok prepared =>
    have prepares : Prepares _ _ _ _ prepared := prepares_of_ok result'
    have cached := known prepared result'
    cases written : read.applyWithUndoFreshOutputsFromPrevouts prepared.spent prepared.prevouts
      prepared.created with
    | error _ => simp [result', written] at applies
    | ok _ =>
      simp only [result', written, Prod.mk.injEq, Except.ok.injEq] at applies
      have present : ∀ key ∈ prepared.spent, ∃ value ∈ read.cached key, value ≠ none :=
        kept.spent_cached prepares cached
      obtain ⟨free, rfl⟩ := (applyFresh_eq_ok prepares.length_eq prepares.spent_nodup present
        prepares.created_nodup).mp written
      obtain ⟨valid, apart⟩ := kept.valid_hides prepares cached free
      have shown := kept.writeAll prepared.created fun key member => kept.known_of_cached (cached key member)
      refine ⟨prepared, _, rfl, applies.2.symm, valid, apart, ?_⟩
      rw [← applies.1, Mutation.apply, prepares.spentKeys]
      exact shown

def applyingOf (preparing : Preparing) : Applying :=
  ⟨preparing.transactions.map appliedOf, preparing.scriptChecks, preparing.totals⟩

theorem delta_of_recorded {following : Preparing} {prepared : PreparedTransaction}
    (recorded : recordPrepared context index transaction prepared preparing = .ok following) :
    following.delta = prepared.mutation.apply preparing.delta := by
  obtain ⟨_, _, rfl⟩ := recordPrepared_eq_ok.mp recorded
  rfl

theorem applyRound_eq_ok (overlays : Overlays base hidden state preparing.delta)
    (applies : applyRound crate (utxoStore base.lookup) context block index transaction txid
      (applyingOf preparing) state = (next, .ok applying)) : ∃ prepared hides following,
      prepareOn crate context block preparing.delta.lookup transaction txid = .ok prepared ∧
      recordPrepared context index transaction prepared preparing = .ok following ∧
      applying = applyingOf following ∧ prepared.mutation.Valid base hides preparing.delta ∧
      Disjoint hidden hides ∧ Overlays base (hidden ∪ hides) next following.delta := by
  unfold applyRound at applies
  split at applies
  · exact absurd applies rollback_ne_ok
  rename_i reached transactionResult prevouts applied
  obtain ⟨prepared, hides, result, isResult, valid, apart, shown⟩ := applyTransaction_eq_ok overlays applied
  obtain ⟨rfl, rfl⟩ := Prod.mk.inj isResult
  split at applies
  · cases applies
  · exact absurd applies rollback_ne_ok
  rename_i totals charged
  have recorded : recordPrepared context index transaction prepared preparing = .ok _ :=
    recordPrepared_eq_ok.mpr ⟨totals, charged, rfl⟩
  cases applies
  refine ⟨prepared, hides, _, result, recorded, ?_, valid, apart, shown⟩
  simp [applyingOf]

theorem applyRounds_eq_ok {transactions : List (Transaction × Txid)} (preparing : Preparing)
    (overlays : Overlays base hidden state preparing.delta)
    (applies : applyRounds crate (utxoStore base.lookup) context block index transactions
      (applyingOf preparing) state = (final, .ok applying)) : ∃ prepared executed hidden',
      Executes crate context block index preparing transactions prepared executed ∧ applying = applyingOf executed ∧
      Mutation.Run base hidden preparing.delta (prepared.map PreparedTransaction.mutation) hidden'
        executed.delta ∧ Overlays base hidden' final executed.delta := by
  induction transactions generalizing index preparing hidden state with
  | nil =>
    cases applies
    exact ⟨[], preparing, hidden, .nil, rfl, .nil, overlays⟩
  | cons entry _ ih =>
    rw [applyRounds] at applies
    split at applies
    · cases applies
    rename_i next following round
    obtain ⟨first, _, following, result, recorded, rfl, valid, apart, shown⟩ := applyRound_eq_ok overlays round
    obtain ⟨others, executed, hidden', run, isApplying, mutations, last⟩ := ih following shown applies
    refine ⟨first :: others, executed, hidden', .cons result recorded run, isApplying, ?_, last⟩
    rw [delta_of_recorded recorded] at mutations
    exact .cons valid apart mutations

theorem applyBlock_eq_ok {applied : AppliedBlock}
    {checks : List DeferredScriptCheck} (overlays : Overlays base ∅ state coins)
    (applies : applyPrevalidatedBlockWithDeploymentsInner crate (utxoStore base.lookup) block
      none context false state = (final, .ok (applied, checks))) : ∃ prepared executed hidden,
      BlockExecution crate context block (block.txdata.map crate.computeTxid) coins prepared executed ∧
      verifyDeferredScripts crate executed.scriptChecks = none ∧
      Mutation.Run base ∅ coins (prepared.map PreparedTransaction.mutation) hidden executed.delta ∧
      Overlays base hidden final executed.delta ∧ applied = ⟨crate.blockHash block.header,
        prepared.map fun transaction => undoOf transaction.mutation⟩ := by
  unfold applyPrevalidatedBlockWithDeploymentsInner at applies
  simp only [Bool.false_eq_true] at applies
  split at applies
  · cases applies
  rename_i next applying rounds
  obtain ⟨prepared, executed, hidden, executes, rfl, run, shown⟩ :=
    applyRounds_eq_ok ⟨[], [], ⟨0, 0⟩, coins⟩ overlays rounds
  have transactions : executed.transactions = prepared := executes.transactions_eq
  split at applies
  · exact absurd applies rollback_ne_ok
  rename_i unscripted
  split at applies
  · cases applies
  rename_i coinbase others isApplied
  split at applies
  · exact absurd applies rollback_ne_ok
  rename_i done claimed
  obtain ⟨first, rest, isPrepared, rfl, rfl⟩ : ∃ first rest, prepared = first :: rest ∧
      coinbase = appliedOf first ∧ others = rest.map appliedOf := by
    rw [applyingOf, transactions] at isApplied
    obtain ⟨first, rest, split, head, tail⟩ := List.map_eq_cons_iff.mp isApplied
    exact ⟨first, rest, split, head.symm, tail.symm⟩
  cases applies
  refine ⟨prepared, executed, hidden, ⟨List.length_map _, executes, ?_⟩, unscripted, run, shown, ?_⟩
  · rw [isPrepared]
    exact ⟨first, rfl, claimed⟩
  · rw [applyingOf, transactions, List.map_map]
    rfl

end

section
variable (crate : ChainCrate) (block : Block) (deployments : BlockDeploymentContext)

def collisions (coins : CoinMap) : List OutPointKey :=
  sortedKeys ((block.txdata.flatMap (spendableOutputs crate)).toFinset.filter (coins · ≠ none))

/-- What the BIP30 rules do to a coin set: the keys they remove, unless they refuse the block. -/
def overwritten (coins : CoinMap) : Outcome BlockExecutionError (List OutPointKey) :=
  if !deployments.bip30Enforced && !deployments.bip30Overwrite then .ok []
  else
    match collisions crate block coins with
    | [] => .ok []
    | first :: rest =>
      if deployments.bip30Overwrite then .ok (first :: rest)
      else .error (.refused (.bip30Collision first))

def exceptionOf (coins : CoinTable) (keys : List OutPointKey) :
    Option (Mutation OutPointKey Utxo) :=
  if keys = [] then none else some ⟨coins.entriesAt keys, []⟩

variable {crate block deployments}

theorem run_readCollisions (answer : CoinMap) (keys : List OutPointKey) (found : Finset OutPointKey) :
    (readCollisions keys found).run answer = found ∪ keys.toFinset.filter (answer · ≠ none) := by
  induction keys generalizing found with
  | nil => simp [readCollisions]
  | cons key _ ih =>
    rw [readCollisions, Query.run_bind, Query.run_read, ih]
    ext other
    cases value : answer key with
    | none =>
      by_cases same : other = key
      · simp [same, value]
      · simp [same]
    | some _ =>
      by_cases same : other = key
      · simp [same, value]
      · simp [same]

theorem run_blockOutputCollisions (answer : CoinMap) :
    (blockOutputCollisions crate block).run answer = collisions crate block answer := by
  rw [blockOutputCollisions, Query.run_bind, run_readCollisions]
  rfl

variable {coins : CoinMap} {keys : List OutPointKey}

theorem collisions_present : ∀ key ∈ collisions crate block coins, coins key ≠ none := by
  intro key member
  rw [collisions, mem_sortedKeys, Finset.mem_filter] at member
  exact member.2

theorem overwritten_nodup (removed : overwritten crate block deployments coins = .ok keys) :
    keys.Nodup ∧ ∀ key ∈ keys, coins key ≠ none := by
  unfold overwritten at removed
  split at removed
  · cases removed
    exact ⟨List.nodup_nil, nofun⟩
  split at removed
  · cases removed
    exact ⟨List.nodup_nil, nofun⟩
  rename_i first rest isCollisions
  split at removed
  · cases removed
    rw [← isCollisions]
    exact ⟨nodup_sortedKeys _, collisions_present⟩
  · cases removed

theorem applyBip30Rules_eq (base : CoinTable) :
    match overwritten crate block deployments base.lookup with
    | .error fault => applyBip30Rules crate base.lookup block deployments .empty = .error fault
    | .ok keys => ∃ overlay, applyBip30Rules crate base.lookup block deployments .empty =
        .ok ((exceptionOf base keys).map undoOf, overlay) ∧ Overlays base ∅ overlay (base.eraseAll keys) := by
  obtain ⟨value, shown⟩ := (Overlays.answers base base ∅).runOn (blockOutputCollisions crate block)
    (Overlays.empty base)
  rw [run_blockOutputCollisions] at value
  unfold overwritten applyBip30Rules
  by_cases inactive : (!deployments.bip30Enforced && !deployments.bip30Overwrite) = true
  · rw [if_pos inactive, if_pos inactive]
    exact ⟨_, rfl, Overlays.empty base⟩
  rw [if_neg inactive, if_neg inactive]
  simp only [value]
  cases listed : collisions crate block base.lookup with
  | nil => exact ⟨_, rfl, shown⟩
  | cons _ _ =>
    by_cases overwrites : deployments.bip30Overwrite = true
    · simp only [overwrites]
      obtain ⟨next, removed, kept⟩ := shown.applyWithUndo_remove
        (listed ▸ nodup_sortedKeys _) (listed ▸ collisions_present)
      refine ⟨next, ?_, kept⟩
      rw [removed]
      rfl
    · simp [overwrites]

theorem applyBip30Rules_eq_ok {result : Option UtxoUndo × OverlayState}
    (applies : applyBip30Rules crate base.lookup block deployments .empty = .ok result) :
    ∃ keys, overwritten crate block deployments base.lookup = .ok keys ∧
      result.1 = (exceptionOf base keys).map undoOf ∧ Overlays base ∅ result.2 (base.eraseAll keys) := by
  have rules := @applyBip30Rules_eq crate block deployments base
  cases removed : overwritten crate block deployments base.lookup with
  | error _ =>
    rw [removed] at rules
    cases rules.symm.trans applies
  | ok keys =>
    rw [removed] at rules
    obtain ⟨_, ok, shown⟩ := rules
    cases ok.symm.trans applies
    exact ⟨keys, rfl, rfl, shown⟩

theorem exception_run (removed : overwritten crate block deployments base.lookup = .ok keys) :
    Mutation.Run base ∅ base (exceptionOf base keys).toList ∅ (base.eraseAll keys) := by
  obtain ⟨nodup, present⟩ := overwritten_nodup removed
  unfold exceptionOf
  split
  · next nothing =>
    subst nothing
    exact .nil
  have keysEq : (⟨base.entriesAt keys, []⟩ : Mutation OutPointKey Utxo).spentKeys = keys :=
    Table.map_fst_entriesAt present
  have valid : (⟨base.entriesAt keys, []⟩ : Mutation OutPointKey Utxo).Valid base ∅ base := by
    constructor
    · rw [keysEq]
      exact nodup
    · exact fun entry => Table.lookup_of_mem_entriesAt
    · exact List.nodup_nil
    · exact nofun
    · exact nofun
    · exact nofun
  have moved : (⟨base.entriesAt keys, []⟩ : Mutation OutPointKey Utxo).apply base = base.eraseAll keys := by
    rw [Mutation.apply, keysEq]
    rfl
  refine .cons valid (Finset.disjoint_empty_right _) ?_
  rw [moved]
  exact .nil

end

theorem Overlays.commit {base coins : CoinTable} {state : OverlayState}
    (overlays : Overlays base ∅ state coins) :
    ∃ changes, state.netChanges = .ok changes ∧ Edit.Applicable base.lookup changes.spent changes.created ∧
      (base.eraseAll changes.spent).insertAll changes.created = coins := by
  have none : ∀ key ∈ (∅ : Finset OutPointKey), coins.lookup key = none := nofun
  obtain ⟨changes, netted, isChange⟩ := overlays.netChanges_eq_ok
  refine ⟨changes, netted, ?_, (isChange.keeps overlays none).eq_shown⟩
  exact (isChange.applicable_iff overlays nofun).mpr none

section
variable {crate : ChainCrate} {block : Block} {now : Nat} {deployments : BlockDeploymentContext}

theorem nextActive_eq_ok {current : ExecutionTip} {result : Nat × Nat}
    (next : nextActive crate headers block current = .ok result) :
    (∃ header, headers.activeHeaderAt current.height = some header ∧ header.hash = current.hash) ∧
      checkedAdd 32 current.height 1 = some result.1 ∧ (∃ expected, headers.activeHeaderAt result.1 = some expected ∧
        crate.blockHash block.header = expected.hash) ∧ headers.medianTimePast current.hash = some result.2 := by
  simp only [nextActive, bind_eq_ok, ensure_eq_ok, require_eq_ok, pure_eq_ok] at next
  obtain ⟨_, active, _, height, expected, isExpected, _, same, _, parentMtp, rfl⟩ := next
  exact ⟨active, height, ⟨expected, isExpected, same⟩, parentMtp⟩

def blockMutations (coins : CoinTable) (keys : List OutPointKey)
    (prepared : List PreparedTransaction) : List (Mutation OutPointKey Utxo) :=
  (exceptionOf coins keys).toList ++ prepared.map PreparedTransaction.mutation

/-- A block that is valid after the store's tip, with what its execution on the store's coins gives. -/
structure Connection (crate : ChainCrate) (headers : HeaderDag) (store : ChainStore) (block : Block)
    (now : Nat) (deployments : BlockDeploymentContext) (height parentMtp : Nat)
    (keys : List OutPointKey) (prepared : List PreparedTransaction) (executed : Preparing) : Prop where
  next : nextActive crate headers block store.tip = .ok (height, parentMtp)
  removed : overwritten crate block deployments store.coins.lookup = .ok keys
  structural : validateStructure crate block height deployments = .ok ()
  execution : BlockExecution crate (blockContext deployments height now parentMtp) block
    (block.txdata.map crate.computeTxid) (store.coins.eraseAll keys) prepared executed
  scripts : verifyDeferredScripts crate executed.scriptChecks = none

@[simp] theorem refusing_eq_ok {α ε : Type} {embed : ε → BlockExecutionError} {result : Except ε α}
    {value : α} : refusing embed result = .ok value ↔ result = .ok value := mapError_eq_ok

theorem connectActiveBlock_eq_ok {result : ChainStore × AppliedBlock}
    (connected : connectActiveBlock crate headers store block now deployments = .ok result) :
    ∃ height parentMtp keys prepared executed hidden kept,
      Connection crate headers store block now deployments height parentMtp keys prepared executed ∧
      Mutation.Run store.coins ∅ store.coins (blockMutations store.coins keys prepared) hidden
        executed.delta ∧ Mutation.Keeps store.coins hidden executed.delta kept ∧
      AgesFit [(height, (blockMutations store.coins keys prepared).map undoOf)] ∧
      store.CanExtend store.tip.hash ⟨height, crate.blockHash block.header⟩ ∧
      result = (store.extended kept ⟨height, crate.blockHash block.header⟩
          ((blockMutations store.coins keys prepared).map undoOf),
        ⟨crate.blockHash block.header, (blockMutations store.coins keys prepared).map undoOf⟩) := by
  simp only [connectActiveBlock, validateActiveBlock, validateActiveBlockInner, bind_eq_ok,
    refusing_eq_ok, mapError_eq_ok, pure_eq_ok] at connected
  obtain ⟨_, ⟨_, ⟨⟨height, parentMtp⟩, next, ⟨exception, _⟩, bip30, _, structural,
    ⟨_, _⟩, applies, rfl⟩, _, netted, rfl⟩, ⟨_, _⟩, commits, rfl⟩ := connected
  obtain ⟨keys, removed, isException, shown⟩ := applyBip30Rules_eq_ok bip30
  obtain ⟨prepared, executed, hidden, execution, scripts, run, finalShown, rfl⟩ :=
    applyBlock_eq_ok shown (Prod.ext rfl applies)
  have wholeRun := (exception_run removed).append run
  have present := wholeRun.hidden_present (by simp)
  obtain ⟨_, isComputed, isChange⟩ := finalShown.netChanges_eq_ok
  cases isComputed.symm.trans netted
  obtain ⟨⟨ages, applicable, canExtend⟩, isCommitted⟩ := ChainStore.commitConnect_eq_ok.mp commits
  have absent := (isChange.applicable_iff finalShown present).mp applicable
  have heightEq : store.tip.height + 1 = height := by
    have added := (nextActive_eq_ok next).2.1
    exact (checkedAdd_eq_some.mp added).2
  have undos : exception.toList ++ prepared.map (fun transaction => undoOf transaction.mutation) =
      (blockMutations store.coins keys prepared).map undoOf := by
    rw [blockMutations, List.map_append, List.map_map, show exception = _ from isException]
    cases exceptionOf store.coins keys <;> rfl
  simp only [ChainStore.executionTip, heightEq, undos] at ages canExtend isCommitted ⊢
  obtain ⟨rfl, rfl⟩ := Prod.mk.inj isCommitted
  exact ⟨height, parentMtp, keys, prepared, executed, hidden, _,
    ⟨next, removed, structural, execution, scripts⟩, wholeRun, isChange.keeps finalShown absent, ages, canExtend, rfl⟩

end

variable {mutations : List (Mutation OutPointKey Utxo)}

theorem executedParent_eq_ok {current parent : ExecutionTip} : executedParent headers current = .ok parent ↔
      ∃ info parentInfo, headers.headers.lookup current.hash = some info ∧
        headers.headers.lookup info.header.prevBlockhash = some parentInfo ∧
        checkedAdd 32 parentInfo.height 1 = some current.height ∧ parent = ⟨parentInfo.height, parentInfo.hash⟩ := by
  simp only [executedParent, bind_eq_ok, require_eq_ok, ensure_eq_ok, pure_eq_ok]
  tauto

theorem disconnectExecutionTip_eq_ok {result : ChainStore × ExecutionTip}
    (recorded : store.undos.lookup store.tip.hash = some (mutations.map undoOf)) :
    disconnectExecutionTip headers store = .ok result ↔
      (store.tip.height ≠ 0 ∧ store.assumedSnapshotBase ≠ some store.tip ∧
        executedParent headers store.tip = .ok result.2 ∧ Mutation.RevertibleAll store.coins mutations.reverse ∧
        AgesFit [(store.tip.height, mutations.map undoOf)]) ∧
      result.1 = store.rewound (Mutation.revertAll store.coins mutations.reverse) result.2 := by
  have reversed : (mutations.map undoOf).reverse = mutations.reverse.map undoOf := List.map_reverse.symm
  simp only [disconnectExecutionTip, disconnectBlock, bind_eq_ok, ensure_eq_ok, refusing_eq_ok, pure_eq_ok]
  simp only [ChainStore.executionTip, ChainStore.blockUndo, recorded]
  constructor
  · rintro ⟨_, above, _, based, _, isParent, _, isRecorded, _, undone, changes, netted, committed, commits, rfl⟩
    cases isRecorded
    rw [reversed] at undone netted
    obtain ⟨revertible, shown⟩ := (Overlays.empty store.coins).undoAll_eq_ok (Prod.ext rfl undone)
    obtain ⟨_, isComputed, applicable, coins⟩ := shown.commit
    cases isComputed.symm.trans netted
    obtain ⟨⟨ages, _⟩, rfl⟩ := ChainStore.commitDisconnect_eq_ok.mp commits
    exact ⟨⟨above, based, isParent, revertible, ages⟩, by rw [coins]⟩
  · rintro ⟨⟨above, based, isParent, revertible, ages⟩, isResult⟩
    obtain ⟨_, undone⟩ := (Overlays.empty store.coins).undoAll_of_revertible revertible
    obtain ⟨_, shown⟩ := (Overlays.empty store.coins).undoAll_eq_ok undone
    obtain ⟨changes, netted, applicable, coins⟩ := shown.commit
    obtain ⟨_, _, _, _, follows, isInfo⟩ := executedParent_eq_ok.mp isParent
    have tipFollows : checkedAdd 32 result.2.height 1 = some store.tip.height := by
      rw [isInfo]
      exact follows
    have committed := ChainStore.commitDisconnect_eq_ok.mpr
      ⟨⟨ages, applicable, rfl, tipFollows, recorded ▸ Option.some_ne_none _⟩, rfl⟩
    rw [coins] at committed
    refine ⟨(), above, (), based, result.2, isParent, _, rfl, ?_⟩
    rw [reversed, undone]
    exact ⟨(), rfl, changes, netted, _, committed, Prod.ext isResult.symm rfl⟩

end Rbtc.Execution
