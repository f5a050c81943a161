import Rbtc.Chainstate.ChainStore

/-! The MDBX chainstate (`mdbx_utxo.rs`): compact coins in two tables, creation times by height. Interning loses
nothing: it accepts and answers like a plain store with the creation time inside each coin. -/

namespace Rbtc.Chainstate

open Foundation Bitcoin

structure CompactCoin where
  valueSats : Nat
  height : Nat
  isCoinbase : Bool
  scriptPubkey : List UInt8
  deriving DecidableEq, Repr

def Utxo.compact (coin : Utxo) : CompactCoin :=
  ⟨coin.valueSats, coin.height, coin.isCoinbase, coin.scriptPubkey⟩

def CompactCoin.utxo (coin : CompactCoin) (creationMtp : Nat) : Utxo :=
  { valueSats := coin.valueSats
    height := coin.height
    isCoinbase := coin.isCoinbase
    lastTouched := 0
    creationMtp
    scriptPubkey := coin.scriptPubkey }

structure CompactUndo where
  spent : List (OutPointKey × CompactCoin)
  created : List OutPointKey
  deriving DecidableEq, Repr

def UtxoUndo.compact (undo : UtxoUndo) : CompactUndo :=
  ⟨undo.spent.map fun entry => (entry.1, entry.2.compact), undo.created⟩

def defaultHotWindowBlocks : Nat := 3 * 365 * 24 * 6

def maxAtomicIbdBatchBlocks : Nat := 256

@[ext] structure CoinTiers (γ : Type) where
  hot : Table OutPointKey γ
  cold : Table OutPointKey γ

namespace CoinTiers

variable {γ : Type}

def lookup (tiers : CoinTiers γ) (key : OutPointKey) : Option γ :=
  (tiers.hot.lookup key).or (tiers.cold.lookup key)

def erase (tiers : CoinTiers γ) (key : OutPointKey) : CoinTiers γ :=
  { hot := tiers.hot.erase key, cold := tiers.cold.erase key }

def place (tiers : CoinTiers γ) (tipHeight : Nat) (key : OutPointKey) (height : Nat) (coin : γ) :
    Outcome UtxoError (CoinTiers γ) := do
  ensure (height ≤ tipHeight) (.refused (.malformed "UTXO creation height exceeds execution tip"))
  if tipHeight - height ≤ defaultHotWindowBlocks then
    return { tiers with hot := tiers.hot.insert key coin }
  else return { tiers with cold := tiers.cold.insert key coin }

end CoinTiers

structure SpentCoins where
  seen : Finset OutPointKey
  recorded : List CoinEntry

def collectSpent (recordUndo : Bool) (read : OutPointKey → Outcome UtxoError Utxo) (spent : SpentCoins)
    (key : OutPointKey) : Outcome UtxoError SpentCoins := do
  ensure (key ∉ spent.seen) (.refused (.duplicateSpend key))
  let coin ← read key
  return ⟨insert key spent.seen, if recordUndo then spent.recorded ++ [(key, coin)] else spent.recorded⟩

def checkFree (seenSpent : Finset OutPointKey) (occupied : OutPointKey → Bool)
    (seenCreated : Finset OutPointKey) (key : OutPointKey) : Outcome UtxoError (Finset OutPointKey) := do
  ensure (key ∉ seenCreated) (.refused (.duplicate key))
  ensure (key ∈ seenSpent ∨ occupied key = false) (.refused (.duplicate key))
  return insert key seenCreated

def checkCreationMtp (mtpByHeight : Table Nat Nat) (coin : Utxo) : Outcome UtxoError (Table Nat Nat) := do
  ensure ((mtpByHeight.lookup coin.height).getD coin.creationMtp = coin.creationMtp)
    (.refused (.malformed "conflicting creation MTP in one block batch"))
  return mtpByHeight.insert coin.height coin.creationMtp

def validateTipAdvance (current : ExecutionTip) (expectedParent : BlockHash) (next : ExecutionTip) :
    Outcome UtxoError Unit := do
  ensure (current.hash = expectedParent) (.refused (.malformed "MDBX execution parent mismatch"))
  ensure (checkedAdd 32 current.height 1 = some next.height)
    (.refused (.malformed "MDBX execution height is not contiguous"))

def advanceTo (current : ExecutionTip) (transition : ConnectTransition) : Outcome UtxoError ExecutionTip := do
  validateTipAdvance current transition.expectedParent transition.next
  return transition.next

/-- The tables a commit writes, whatever they keep of a coin. -/
structure CommitTables (σ : Type) where
  tip : σ → Option ExecutionTip
  setTip : σ → ExecutionTip → σ
  applyNetChanges : Bool → σ → List OutPointKey → List CoinEntry → Nat → Outcome UtxoError (σ × UtxoUndo)
  recordBlock : σ → ConnectTransition → Outcome UtxoError σ
  removeUndo : σ → BlockHash → Outcome UtxoError σ

inductive MdbxCall where
  | connect (transition : ConnectTransition)
  | connectBatch (transitions : Transitions)
  | disconnect (expectedCurrent parent : ExecutionTip) (spent : List OutPointKey)
      (created : List CoinEntry)

namespace CommitTables

variable {σ : Type} (tables : CommitTables σ) (store : σ)

def readTip : Outcome UtxoError ExecutionTip :=
  require (tables.tip store) (.refused (.malformed "MDBX execution tip is uninitialized"))

def commitConnect (transition : ConnectTransition) : Outcome UtxoError (σ × UtxoUndo) := do
  let current ← tables.readTip store
  validateTipAdvance current transition.expectedParent transition.next
  let (applied, aggregate) ← tables.applyNetChanges true store transition.spent transition.created
    transition.next.height
  let recorded ← tables.recordBlock applied transition
  return (tables.setTip recorded transition.next, aggregate)

def commitConnectBatch (transitions : Transitions) : Outcome UtxoError σ :=
  if transitions = [] then .ok store
  else do
    ensure (transitions.length ≤ maxAtomicIbdBatchBlocks)
      (.refused (.malformed "MDBX IBD batch exceeds 256 blocks"))
    let change ← (foldOutcome foldTransition ∅ transitions).mapError Fault.refused
    let current ← tables.readTip store
    let last ← foldOutcome advanceTo current transitions
    let (applied, _) ← tables.applyNetChanges false store (sortedKeys change.spent) (sortedEntries change.created)
      last.height
    let recorded ← foldOutcome tables.recordBlock applied transitions
    return tables.setTip recorded last

def commitDisconnect (expectedCurrent parent : ExecutionTip) (spent : List OutPointKey)
    (created : List CoinEntry) : Outcome UtxoError (σ × UtxoUndo) := do
  ensure (checkedAdd 32 parent.height 1 = some expectedCurrent.height)
    (.refused (.malformed "MDBX disconnect height is not contiguous"))
  ensure (tables.tip store = some expectedCurrent) (.refused (.malformed "MDBX disconnect tip mismatch"))
  let (applied, aggregate) ← tables.applyNetChanges true store spent created parent.height
  let removed ← tables.removeUndo applied expectedCurrent.hash
  return (tables.setTip removed parent, aggregate)

/-- The state a call leaves and what it returns; a refused call leaves the store as it was. -/
def perform : MdbxCall → Outcome UtxoError (σ × Option UtxoUndo)
  | .connect transition => do
      let (next, aggregate) ← tables.commitConnect store transition
      return (next, some aggregate)
  | .connectBatch transitions => do
      let next ← tables.commitConnectBatch store transitions
      return (next, none)
  | .disconnect expectedCurrent parent spent created => do
      let (next, aggregate) ← tables.commitDisconnect store expectedCurrent parent spent created
      return (next, some aggregate)

end CommitTables

@[ext] structure MdbxStore where
  tiers : CoinTiers CompactCoin
  undo : Table BlockHash (List CompactUndo)
  creationMtps : Table Nat Nat
  tip : Option ExecutionTip

namespace MdbxStore

def initialized (tip : ExecutionTip) : MdbxStore :=
  { tiers := ⟨∅, ∅⟩, undo := ∅, creationMtps := ∅, tip := some tip }

section
variable (store : MdbxStore)

def readCreationMtp (height : Nat) : Outcome UtxoError Nat :=
  require (store.creationMtps.lookup height) (.refused (.malformed "missing creation MTP for compact coin"))

def decodeCoin (coin : CompactCoin) : Outcome UtxoError Utxo := do
  let mtp ← store.readCreationMtp coin.height
  return coin.utxo mtp

def decodeCoinCached (mtpByHeight : Table Nat Nat) (coin : CompactCoin) :
    Outcome UtxoError (Utxo × Table Nat Nat) :=
  match mtpByHeight.lookup coin.height with
  | some mtp => .ok (coin.utxo mtp, mtpByHeight)
  | none => do
      let mtp ← store.readCreationMtp coin.height
      return (coin.utxo mtp, mtpByHeight.insert coin.height mtp)

def readCoin (key : OutPointKey) : Outcome UtxoError Utxo := do
  let coin ← require (store.tiers.lookup key) (.refused (.missing key))
  store.decodeCoin coin

def get (outpoint : OutPointKey) : Outcome UtxoError (Option Utxo) :=
  match store.tiers.lookup outpoint with
  | some coin => do
      let utxo ← store.decodeCoin coin
      return some utxo
  | none => .ok none

def getNext (answered : List (OutPointKey × Option Utxo) × Table Nat Nat) (outpoint : OutPointKey) :
    Outcome UtxoError (List (OutPointKey × Option Utxo) × Table Nat Nat) :=
  match store.tiers.lookup outpoint with
  | some coin => do
      let (utxo, mtpByHeight) ← store.decodeCoinCached answered.2 coin
      return (answered.1 ++ [(outpoint, some utxo)], mtpByHeight)
  | none => .ok (answered.1 ++ [(outpoint, none)], answered.2)

def getMany (outpoints : List OutPointKey) : Outcome UtxoError (List (OutPointKey × Option Utxo)) := do
  let (answers, _) ← foldOutcome store.getNext ([], ∅) outpoints
  return answers

def scanRow (entries : CoinTable) (row : OutPointKey × CompactCoin) :
    Outcome UtxoError CoinTable := do
  let coin ← store.decodeCoin row.2
  ensure (entries.lookup row.1 = none) (.refused (.malformed "outpoint in both MDBX tiers"))
  return entries.insert row.1 coin

def snapshotEntries : Outcome UtxoError CoinTable :=
  foldOutcome store.scanRow ∅ (sortedEntries store.tiers.hot ++ sortedEntries store.tiers.cold)

def decodeUndo (undo : CompactUndo) : Outcome UtxoError UtxoUndo := do
  let spent ← undo.spent.mapM fun entry => do
    let coin ← store.decodeCoin entry.2
    return (entry.1, coin)
  return ⟨spent, undo.created⟩

def blockUndo (hash : BlockHash) : Outcome UtxoError (Option (List UtxoUndo)) :=
  match store.undo.lookup hash with
  | some undos => do
      let decoded ← undos.mapM store.decodeUndo
      return some decoded
  | none => .ok none

end

structure RowCursor where
  rowsAfter : Table OutPointKey CompactCoin → Option OutPointKey → List (OutPointKey × CompactCoin)
  stored : ∀ table after, ∀ row ∈ rowsAfter table after, table.lookup row.1 = some row.2

def nextRow (store : MdbxStore) : List (OutPointKey × CompactCoin) →
      Outcome UtxoError (Option CoinEntry × List (OutPointKey × CompactCoin))
  | [] => .ok (none, [])
  | row :: rows => do
      let coin ← store.decodeCoin row.2
      return (some (row.1, coin), rows)

def mergePage (store : MdbxStore) : Nat → Option CoinEntry × List (OutPointKey × CompactCoin) →
      Option CoinEntry × List (OutPointKey × CompactCoin) → Outcome UtxoError (List CoinEntry)
  | 0, _, _ => .ok []
  | _, (none, _), (none, _) => .ok []
  | limit + 1, (some hot, hots), (none, colds) => do
      let next ← store.nextRow hots
      let rest ← mergePage store limit next (none, colds)
      return hot :: rest
  | limit + 1, (none, hots), (some cold, colds) => do
      let next ← store.nextRow colds
      let rest ← mergePage store limit (none, hots) next
      return cold :: rest
  | limit + 1, (some hot, hots), (some cold, colds) => do
      ensure (hot.1 ≠ cold.1) (.refused (.malformed "outpoint in both tiers"))
      if hot.1 < cold.1 then do
        let next ← store.nextRow hots
        let rest ← mergePage store limit next (some cold, colds)
        return hot :: rest
      else do
        let next ← store.nextRow colds
        let rest ← mergePage store limit (some hot, hots) next
        return cold :: rest

def snapshotPage (cursor : RowCursor) (store : MdbxStore) (after : Option OutPointKey) (limit : Nat) :
    Outcome UtxoError (List CoinEntry) :=
  if limit = 0 then .ok []
  else do
    let hot ← store.nextRow (cursor.rowsAfter store.tiers.hot after)
    let cold ← store.nextRow (cursor.rowsAfter store.tiers.cold after)
    store.mergePage limit hot cold

def registerCreationMtp (mtps : Table Nat Nat) (coin : Utxo) : Table Nat Nat :=
  mtps.insert coin.height coin.creationMtp

def registerUndoCreationMtps (mtps : Table Nat Nat) (undos : List UtxoUndo) : Table Nat Nat :=
  undos.foldl (fun mtps undo => undo.spent.foldl (fun mtps entry => registerCreationMtp mtps entry.2) mtps) mtps

def writeCoin (tipHeight : Nat) (store : MdbxStore) (entry : CoinEntry) :
    Outcome UtxoError MdbxStore := do
  let tiers ← store.tiers.place tipHeight entry.1 entry.2.height entry.2.compact
  return { store with tiers, creationMtps := registerCreationMtp store.creationMtps entry.2 }

def applyNetChanges (recordUndo : Bool) (store : MdbxStore) (spent : List OutPointKey)
    (created : List CoinEntry) (tipHeight : Nat) : Outcome UtxoError (MdbxStore × UtxoUndo) := do
  let spending ← foldOutcome (collectSpent recordUndo store.readCoin) ⟨∅, []⟩ spent
  let _ ← foldOutcome (checkFree spending.seen fun key => (store.tiers.lookup key).isSome) ∅
    (created.map Prod.fst)
  let _ ← foldOutcome checkCreationMtp ∅ (created.map Prod.snd)
  let cleared := { store with tiers := spent.foldl CoinTiers.erase store.tiers }
  let written ← foldOutcome (writeCoin tipHeight) cleared created
  return (written, ⟨spending.recorded, if recordUndo then created.map Prod.fst else []⟩)

def recordBlock (store : MdbxStore) (transition : ConnectTransition) : Outcome UtxoError MdbxStore := do
  ensure (store.undo.lookup transition.next.hash = none) (.refused (.malformed "duplicate MDBX block undo"))
  return { store with
    undo := store.undo.insert transition.next.hash (transition.transactionUndos.map UtxoUndo.compact)
    creationMtps := registerUndoCreationMtps store.creationMtps transition.transactionUndos }

def removeUndo (store : MdbxStore) (hash : BlockHash) : Outcome UtxoError MdbxStore := do
  ensure (store.undo.lookup hash ≠ none) (.refused (.malformed "missing MDBX block undo"))
  return { store with undo := store.undo.erase hash }

def tables : CommitTables MdbxStore :=
  { tip := MdbxStore.tip
    setTip := fun store tip => { store with tip := some tip }
    applyNetChanges, recordBlock, removeUndo }

def perform : MdbxStore → MdbxCall → Outcome UtxoError (MdbxStore × Option UtxoUndo) :=
  tables.perform

end MdbxStore

def UtxoUndo.untouched (undo : UtxoUndo) : UtxoUndo :=
  ⟨undo.spent.map fun entry => (entry.1, entry.2.untouched), undo.created⟩

/-- The tables with every coin in full. -/
@[ext] structure PlainStore where
  tiers : CoinTiers Utxo
  undo : Table BlockHash (List UtxoUndo)
  tip : Option ExecutionTip

namespace PlainStore

def initialized (tip : ExecutionTip) : PlainStore := { tiers := ⟨∅, ∅⟩, undo := ∅, tip := some tip }

variable (store : PlainStore)

def readCoin (key : OutPointKey) : Outcome UtxoError Utxo :=
  require (store.tiers.lookup key) (.refused (.missing key))

def writeCoin (tipHeight : Nat) (tiers : CoinTiers Utxo) (entry : CoinEntry) :
    Outcome UtxoError (CoinTiers Utxo) :=
  tiers.place tipHeight entry.1 entry.2.height entry.2.untouched

def applyNetChanges (recordUndo : Bool) (store : PlainStore) (spent : List OutPointKey)
    (created : List CoinEntry) (tipHeight : Nat) : Outcome UtxoError (PlainStore × UtxoUndo) := do
  let spending ← foldOutcome (collectSpent recordUndo store.readCoin) ⟨∅, []⟩ spent
  let _ ← foldOutcome (checkFree spending.seen fun key => (store.tiers.lookup key).isSome) ∅
    (created.map Prod.fst)
  let tiers ← foldOutcome (writeCoin tipHeight) (spent.foldl CoinTiers.erase store.tiers) created
  return ({ store with tiers }, ⟨spending.recorded, if recordUndo then created.map Prod.fst else []⟩)

def recordBlock (transition : ConnectTransition) : Outcome UtxoError PlainStore := do
  ensure (store.undo.lookup transition.next.hash = none) (.refused (.malformed "duplicate MDBX block undo"))
  return { store with
    undo := store.undo.insert transition.next.hash (transition.transactionUndos.map UtxoUndo.untouched) }

def removeUndo (hash : BlockHash) : Outcome UtxoError PlainStore := do
  ensure (store.undo.lookup hash ≠ none) (.refused (.malformed "missing MDBX block undo"))
  return { store with undo := store.undo.erase hash }

def tables : CommitTables PlainStore :=
  { tip := PlainStore.tip
    setTip := fun store tip => { store with tip := some tip }
    applyNetChanges, recordBlock, removeUndo }

def perform : PlainStore → MdbxCall → Outcome UtxoError (PlainStore × Option UtxoUndo) :=
  tables.perform

end PlainStore

/-- The chain the calls follow: its blocks, newest first, and the creation time each block gives. -/
abbrev BlockTimes := BlockHash → Nat

/-- The block created the coin: at its height, with its creation time, under a key its undo lists. -/
structure ConnectTransition.CreatedCoin (mtpOf : BlockTimes) (block : ConnectTransition) (key : OutPointKey)
    (coin : Utxo) : Prop where
  height_eq : coin.height = block.next.height
  mtp_eq : coin.creationMtp = mtpOf block.next.hash
  listed : ∃ undo ∈ block.transactionUndos, key ∈ undo.created

/-- A block on top of a chain: it creates its own coins, and spends coins of the chain or its own. -/
structure ConnectTransition.Consistent (mtpOf : BlockTimes) (chain : Transitions)
    (block : ConnectTransition) : Prop where
  created : ∀ entry ∈ block.created, block.CreatedCoin mtpOf entry.1 entry.2
  spent : ∀ undo ∈ block.transactionUndos, ∀ entry ∈ undo.spent,
    ∃ creator ∈ block :: chain, creator.CreatedCoin mtpOf entry.1 entry.2

def ConsistentBatch (mtpOf : BlockTimes) : Transitions → Transitions → Prop
  | _, [] => True
  | chain, block :: rest => block.Consistent mtpOf chain ∧ ConsistentBatch mtpOf (block :: chain) rest

/-- A disconnect removes the coins the newest block left and restores coins from before it. -/
structure Reverts (chain : Transitions) (store : MdbxStore) (expectedCurrent parent : ExecutionTip)
    (spent : List OutPointKey) (created : List CoinEntry) : Prop where
  parent_eq : ∀ block ∈ chain.head?, parent.hash = block.expectedParent
  removed : ∀ undos, store.blockUndo expectedCurrent.hash = .ok (some undos) → ∀ undo ∈ undos,
    ∀ key ∈ undo.created, ∀ coin, store.get key = .ok (some coin) → coin.height = expectedCurrent.height → key ∈ spent
  restored : ∀ entry ∈ created, ∃ undos, store.blockUndo expectedCurrent.hash = .ok (some undos) ∧
    (∃ undo ∈ undos, entry ∈ undo.spent) ∧ entry.2.height < expectedCurrent.height

/-- Blocks on the tip are consistent with the chain, and a disconnect of the tip reverts it. Other
calls are arbitrary. -/
def MdbxCall.Follows (mtpOf : BlockTimes) (chain : Transitions) (store : MdbxStore) : MdbxCall → Prop
  | .connect transition =>
    ∀ tip, store.tip = some tip → tip.Precedes transition → transition.Consistent mtpOf chain
  | .connectBatch transitions =>
    ∀ tip, store.tip = some tip → tip.Contiguous transitions → ConsistentBatch mtpOf chain transitions
  | .disconnect expectedCurrent parent spent created =>
    store.tip = some expectedCurrent → Reverts chain store expectedCurrent parent spent created

def MdbxCall.extend (chain : Transitions) : MdbxCall → Transitions
  | .connect transition => transition :: chain
  | .connectBatch transitions => transitions.reverse ++ chain
  | .disconnect _ _ _ _ => chain.tail

/-- Calls that follow a chain one after the other, with the chain and the store they end in. -/
inductive Along (mtpOf : BlockTimes) : Transitions → MdbxStore → List MdbxCall → Transitions → MdbxStore → Prop
  | nil (chain : Transitions) (store : MdbxStore) : Along mtpOf chain store [] chain store
  | accepted {chain finalChain store next finalStore call calls undo} (follows : call.Follows mtpOf chain store)
      (performed : store.perform call = .ok (next, undo))
      (rest : Along mtpOf (call.extend chain) next calls finalChain finalStore) :
      Along mtpOf chain store (call :: calls) finalChain finalStore
  | refused {chain finalChain store finalStore call calls fault} (follows : call.Follows mtpOf chain store)
      (failed : store.perform call = .error fault) (rest : Along mtpOf chain store calls finalChain finalStore) :
      Along mtpOf chain store (call :: calls) finalChain finalStore

def performAll {σ : Type} (perform : σ → MdbxCall → Outcome UtxoError (σ × Option UtxoUndo)) :
    σ → List MdbxCall → σ × List (Outcome UtxoError (Option UtxoUndo))
  | state, [] => (state, [])
  | state, call :: rest =>
    match perform state call with
    | .ok (next, undo) => ((performAll perform next rest).1, .ok undo :: (performAll perform next rest).2)
    | .error fault => ((performAll perform state rest).1, .error fault :: (performAll perform state rest).2)

def CreatedIn (mtpOf : BlockTimes) (chain : Transitions) (key : OutPointKey) (coin : Utxo) : Prop :=
  ∃ creator ∈ chain, creator.CreatedCoin mtpOf key coin

/-- Reads of the interned store report the coins of the plain one, with their blocks' times. -/
structure ReadsAs (mtpOf : BlockTimes) (chain : Transitions) (store : MdbxStore) (plain : PlainStore) : Prop where
  get : ∀ key, store.get key = .ok (plain.tiers.lookup key)
  getMany : ∀ keys, store.getMany keys = .ok (keys.map fun key => (key, plain.tiers.lookup key))
  snapshotEntries : ∃ entries, store.snapshotEntries = .ok entries ∧ ∀ key, entries.lookup key = plain.tiers.lookup key
  snapshotPage : ∀ cursor after limit, ∃ page, store.snapshotPage cursor after limit = .ok page ∧
    ∀ entry ∈ page, plain.tiers.lookup entry.1 = some entry.2
  blockUndo : ∀ hash, store.blockUndo hash = .ok (plain.undo.lookup hash)
  coins : ∀ key coin, plain.tiers.lookup key = some coin → CreatedIn mtpOf chain key coin
  undoCoins : ∀ hash undos, plain.undo.lookup hash = some undos → ∀ undo ∈ undos, ∀ entry ∈ undo.spent,
    CreatedIn mtpOf chain entry.1 entry.2

open CoinTiers MdbxStore Table List

section
variable (mtps : Table Nat Nat)

def registerAll (coins : List Utxo) : Table Nat Nat :=
  coins.foldl registerCreationMtp mtps

theorem registerAll_append (front back : List Utxo) :
    registerAll mtps (front ++ back) = registerAll (registerAll mtps front) back :=
  foldl_append

theorem registerUndoCreationMtps_eq (undos : List UtxoUndo) : registerUndoCreationMtps mtps undos =
      registerAll mtps (undos.flatMap fun undo => undo.spent.map Prod.snd) := by
  induction undos generalizing mtps with
  | nil => rfl
  | cons _ _ ih =>
    rw [flatMap_cons, registerAll_append, ← ih, registerAll, foldl_map]
    rfl

variable {timeAt : Nat → Nat} {coins : List Utxo}

theorem lookup_registerAll (agree : ∀ coin ∈ coins, coin.creationMtp = timeAt coin.height)
    {mtps : Table Nat Nat} {coin : Utxo} (suits : coin.creationMtp = timeAt coin.height)
    (known : mtps.lookup coin.height = some coin.creationMtp ∨ coin ∈ coins) :
    (registerAll mtps coins).lookup coin.height = some coin.creationMtp := by
  induction coins generalizing mtps with
  | nil => exact known.resolve_right not_mem_nil
  | cons _ rest ih =>
    rw [forall_mem_cons] at agree
    refine ih agree.2 ?_
    by_cases listed : coin ∈ rest
    · exact .inr listed
    refine .inl ?_
    rw [registerCreationMtp, lookup_insert]
    split
    · next same => rw [agree.1, ← same, ← suits]
    rename_i other
    rcases known with before | member
    · exact before
    · rcases mem_cons.mp member with rfl | later
      · exact absurd rfl other
      · exact absurd later listed

theorem checkCreationMtp_passes (agree : ∀ coin ∈ coins, coin.creationMtp = timeAt coin.height)
    {mtps : Table Nat Nat} (suits : ∀ height mtp, mtps.lookup height = some mtp → mtp = timeAt height) :
    ∃ final, foldOutcome checkCreationMtp mtps coins = .ok final := by
  induction coins generalizing mtps with
  | nil => exact ⟨mtps, rfl⟩
  | cons coin _ ih =>
    rw [forall_mem_cons] at agree
    have consistent : (mtps.lookup coin.height).getD coin.creationMtp = coin.creationMtp := by
      cases found : mtps.lookup coin.height with
      | none => rfl
      | some mtp => rw [Option.getD_some, suits _ _ found, agree.1]
    rw [foldOutcome_cons, checkCreationMtp, ensure_of consistent]
    refine ih agree.2 fun height mtp found => ?_
    rw [lookup_insert] at found
    split at found
    · next same => rw [same, ← Option.some.inj found, agree.1]
    · exact suits height mtp found

end

structure CoinTiers.Mirrors (tiers : CoinTiers CompactCoin) (plain : CoinTiers Utxo) : Prop where
  hot : ∀ key, tiers.hot.lookup key = (plain.hot.lookup key).map Utxo.compact
  cold : ∀ key, tiers.cold.lookup key = (plain.cold.lookup key).map Utxo.compact

namespace CoinTiers.Mirrors

variable {tiers : CoinTiers CompactCoin} {plain : CoinTiers Utxo} (mirrors : tiers.Mirrors plain)
include mirrors

theorem lookup_eq (key : OutPointKey) : tiers.lookup key = (plain.lookup key).map Utxo.compact := by
  rw [lookup, lookup, mirrors.hot, mirrors.cold, Option.map_or]

theorem erase (key : OutPointKey) : (tiers.erase key).Mirrors (plain.erase key) := by
  constructor
  · intro other
    rw [CoinTiers.erase, CoinTiers.erase, lookup_erase, lookup_erase, mirrors.hot]
    split <;> rfl
  · intro other
    rw [CoinTiers.erase, CoinTiers.erase, lookup_erase, lookup_erase, mirrors.cold]
    split <;> rfl

theorem eraseAll (keys : List OutPointKey) :
    (keys.foldl CoinTiers.erase tiers).Mirrors (keys.foldl CoinTiers.erase plain) := by
  induction keys generalizing tiers plain with
  | nil => exact mirrors
  | cons key _ ih => exact ih (mirrors.erase key)

theorem place (tipHeight : Nat) (key : OutPointKey) (height : Nat)
    (coin : Utxo) : Lockstep CoinTiers.Mirrors (tiers.place tipHeight key height coin.compact)
      (plain.place tipHeight key height coin) := by
  refine Lockstep.ensure Iff.rfl fun _ => ?_
  split
  · refine .ok ⟨fun other => ?_, mirrors.cold⟩
    rw [lookup_insert, lookup_insert, mirrors.hot]
    split <;> rfl
  · refine .ok ⟨mirrors.hot, fun other => ?_⟩
    rw [lookup_insert, lookup_insert, mirrors.cold]
    split <;> rfl

end CoinTiers.Mirrors

def CoinTiers.Disjoint {γ : Type} (tiers : CoinTiers γ) : Prop :=
  ∀ key, tiers.hot.lookup key ≠ none → tiers.cold.lookup key = none

section
variable {tiers written : CoinTiers Utxo} {tipHeight : Nat}

theorem CoinTiers.lookup_eraseAll (tiers : CoinTiers Utxo) (keys : List OutPointKey) (key : OutPointKey) :
    (keys.foldl erase tiers).lookup key = if key ∈ keys then none else tiers.lookup key := by
  induction keys generalizing tiers with
  | nil => simp
  | cons first rest ih =>
    rw [foldl_cons, ih]
    by_cases later : key ∈ rest
    · simp [later]
    rw [if_neg later, lookup, erase, lookup_erase, lookup_erase]
    by_cases same : key = first
    · simp [same]
    · rw [if_neg same, if_neg same, if_neg (by simp [same, later])]
      rfl

theorem CoinTiers.Disjoint.eraseAll (disjoint : tiers.Disjoint) (keys : List OutPointKey) :
    (keys.foldl erase tiers).Disjoint := by
  induction keys generalizing tiers with
  | nil => exact disjoint
  | cons _ _ ih =>
    refine ih fun key present => ?_
    rw [erase, lookup_erase] at present ⊢
    split
    · rfl
    · next other =>
      rw [if_neg other] at present
      exact disjoint key present

theorem CoinTiers.place_eq_ok {key : OutPointKey} {height : Nat} {coin : Utxo}
    (placed : tiers.place tipHeight key height coin = .ok written) (free : tiers.lookup key = none)
    (disjoint : tiers.Disjoint) :
    written.Disjoint ∧ ∀ other, written.lookup other = if other = key then some coin else tiers.lookup other := by
  obtain ⟨hotFree, coldFree⟩ := Option.or_eq_none_iff.mp free
  simp only [place, bind_eq_ok, ensure_eq_ok, exists_const] at placed
  obtain ⟨-, placed⟩ := placed
  split at placed
  · cases placed
    refine ⟨fun other present => ?_, fun other => ?_⟩
    · rw [lookup_insert] at present
      split at present
      · next same => rw [same]; exact coldFree
      · exact disjoint other present
    · rw [lookup, lookup_insert]
      split <;> rfl
  · cases placed
    refine ⟨fun other present => ?_, fun other => ?_⟩
    · have apart : other ≠ key := by
        rintro rfl
        exact present hotFree
      rw [lookup_insert, if_neg apart]
      exact disjoint other present
    · rw [lookup, lookup_insert]
      split
      · next same => rw [same, hotFree]; rfl
      · rfl

theorem foldOutcome_writeCoin {created : List CoinEntry}
    (wrote : foldOutcome (PlainStore.writeCoin tipHeight) tiers created = .ok written)
    (nodup : (created.map Prod.fst).Nodup) (free : ∀ entry ∈ created, tiers.lookup entry.1 = none)
    (disjoint : tiers.Disjoint) : written.Disjoint ∧ ∀ key coin, written.lookup key = some coin →
      (∃ entry ∈ created, entry.1 = key ∧ entry.2.untouched = coin) ∨ tiers.lookup key = some coin := by
  induction created generalizing tiers with
  | nil =>
    cases wrote
    exact ⟨disjoint, fun _ _ found => .inr found⟩
  | cons entry rest ih =>
    rw [map_cons, nodup_cons] at nodup
    rw [forall_mem_cons] at free
    obtain ⟨_, placed, remaining⟩ := bind_eq_ok.mp wrote
    obtain ⟨middleDisjoint, middleLookup⟩ := place_eq_ok placed free.1 disjoint
    obtain ⟨finalDisjoint, finalLookup⟩ := ih remaining nodup.2 (fun later member => by
      have apart : later.1 ≠ entry.1 := fun same => nodup.1 (same ▸ mem_map_of_mem member)
      rw [middleLookup, if_neg apart]
      exact free.2 later member) middleDisjoint
    refine ⟨finalDisjoint, fun key coin found => ?_⟩
    rcases finalLookup key coin found with ⟨later, member, rest⟩ | before
    · exact .inl ⟨later, .tail _ member, rest⟩
    rw [middleLookup] at before
    split at before
    · next same => exact .inl ⟨entry, mem_cons_self, same.symm, Option.some.inj before⟩
    · exact .inr before

end

theorem foldOutcome_collectSpent {recordUndo : Bool} {read : OutPointKey → Outcome UtxoError Utxo}
    {spent : List OutPointKey} {initial final : SpentCoins}
    (collected : foldOutcome (collectSpent recordUndo read) initial spent = .ok final) :
    ∀ key, key ∈ final.seen ↔ key ∈ initial.seen ∨ key ∈ spent := by
  induction spent generalizing initial with
  | nil =>
    cases collected
    simp
  | cons _ _ ih =>
    simp only [foldOutcome_cons, collectSpent, bind_eq_ok, ensure_eq_ok, exists_const, pure_eq_ok] at collected
    obtain ⟨_, ⟨-, _, -, rfl⟩, remaining⟩ := collected
    intro key
    rw [ih remaining key, Finset.mem_insert, mem_cons]
    tauto

theorem foldOutcome_checkFree {seenSpent seenCreated final : Finset OutPointKey} {occupied : OutPointKey → Bool}
    {keys : List OutPointKey} (checked : foldOutcome (checkFree seenSpent occupied) seenCreated keys = .ok final) :
    keys.Nodup ∧ (∀ key ∈ keys, key ∉ seenCreated) ∧ ∀ key ∈ keys, key ∈ seenSpent ∨ occupied key = false := by
  induction keys generalizing seenCreated with
  | nil => exact ⟨nodup_nil, by simp, by simp⟩
  | cons first _ ih =>
    simp only [foldOutcome_cons, checkFree, bind_eq_ok, ensure_eq_ok, exists_const, pure_eq_ok] at checked
    obtain ⟨_, ⟨fresh, free, rfl⟩, remaining⟩ := checked
    obtain ⟨nodup, unseen, others⟩ := ih remaining
    refine ⟨nodup_cons.mpr ⟨fun later => ?_, nodup⟩, ?_, forall_mem_cons.mpr ⟨free, others⟩⟩
    · exact unseen first later (Finset.mem_insert_self first seenCreated)
    · exact forall_mem_cons.mpr ⟨fresh, fun key member seen =>
        unseen key member (Finset.mem_insert_of_mem seen)⟩

theorem UtxoUndo.compact_untouched (undo : UtxoUndo) : undo.untouched.compact = undo.compact := by
  simp [UtxoUndo.compact, UtxoUndo.untouched, Utxo.compact, Utxo.untouched]

/-- The interned store holds the compact forms of the plain one's coins and undo records. -/
structure Mirrors (store : MdbxStore) (plain : PlainStore) : Prop where
  tiers : store.tiers.Mirrors plain.tiers
  undo : ∀ hash, store.undo.lookup hash = (plain.undo.lookup hash).map (List.map UtxoUndo.compact)
  tip : store.tip = plain.tip

/-- The stores after a coin change: what they hold comes from the change or was there before it. -/
structure Applied (store : MdbxStore) (plain : PlainStore) (spent : List OutPointKey)
    (created : List CoinEntry) (left : MdbxStore) (right : PlainStore) : Prop where
  mirrors : Mirrors left right
  disjoint : right.tiers.Disjoint
  mtps : left.creationMtps = registerAll store.creationMtps (created.map Prod.snd)
  undo_eq : right.undo = plain.undo
  source : ∀ key coin, right.tiers.lookup key = some coin →
    (∃ entry ∈ created, entry.1 = key ∧ entry.2.untouched = coin) ∨ (key ∉ spent ∧ plain.tiers.lookup key = some coin)

variable {store : MdbxStore} {plain : PlainStore}

theorem writeCoins_lockstep {tiers : CoinTiers Utxo} (mirrors : store.tiers.Mirrors tiers) (tipHeight : Nat)
    (created : List CoinEntry) :
    Lockstep (fun (left : MdbxStore) right => left.tiers.Mirrors right ∧ left.undo = store.undo ∧
        left.tip = store.tip ∧ left.creationMtps = registerAll store.creationMtps (created.map Prod.snd))
      (foldOutcome (writeCoin tipHeight) store created)
      (foldOutcome (PlainStore.writeCoin tipHeight) tiers created) := by
  induction created generalizing store tiers with
  | nil => exact .ok ⟨mirrors, rfl, rfl, rfl⟩
  | cons entry _ ih =>
    have placed := mirrors.place tipHeight entry.1 entry.2.height entry.2.untouched
    rw [foldOutcome_cons, writeCoin, bind_assoc]
    refine placed.bind fun left right mirrored => ?_
    exact @ih { store with
      tiers := left
      creationMtps := registerCreationMtp store.creationMtps entry.2 } right mirrored

theorem applyNetChanges_lockstep (mirrors : Mirrors store plain) (disjoint : plain.tiers.Disjoint)
    (reads : store.readCoin = plain.readCoin) {created : List CoinEntry} {timeAt : Nat → Nat}
    (agree : ∀ entry ∈ created, entry.2.creationMtp = timeAt entry.2.height) (recordUndo : Bool)
    (spent : List OutPointKey) (tipHeight : Nat) :
    Lockstep (fun left right => left.2 = right.2 ∧ Applied store plain spent created left.1 right.1)
      (store.applyNetChanges recordUndo spent created tipHeight)
      (plain.applyNetChanges recordUndo spent created tipHeight) := by
  have occupied : (fun key => (store.tiers.lookup key).isSome) = fun key => (plain.tiers.lookup key).isSome := by
    funext key
    rw [mirrors.tiers.lookup_eq, Option.isSome_map]
  have agreeing : ∀ coin ∈ created.map Prod.snd, coin.creationMtp = timeAt coin.height := by
    intro coin member
    obtain ⟨entry, isEntry, rfl⟩ := mem_map.mp member
    exact agree entry isEntry
  obtain ⟨_, passes⟩ := @checkCreationMtp_passes _ _ agreeing ∅ (by simp)
  rw [applyNetChanges, reads, occupied]
  refine Lockstep.bind_same fun spending collected => Lockstep.bind_same fun _ checked => ?_
  rw [passes]
  have seen := foldOutcome_collectSpent collected
  obtain ⟨nodup, -, free⟩ := foldOutcome_checkFree checked
  have wrote := @writeCoins_lockstep { store with tiers := spent.foldl erase store.tiers } _
    (mirrors.tiers.eraseAll spent) tipHeight created
  have erasedFree : ∀ entry ∈ created, (spent.foldl CoinTiers.erase plain.tiers).lookup entry.1 = none := by
    intro entry member
    rw [lookup_eraseAll]
    split
    · rfl
    rename_i unspent
    rcases free entry.1 (mem_map_of_mem member) with isSpent | isFree
    · exact absurd (((seen entry.1).mp isSpent).resolve_left (Finset.notMem_empty _)) unspent
    · simpa using isFree
  dsimp only
  generalize isLeft : foldOutcome (writeCoin tipHeight)
    { store with tiers := spent.foldl erase store.tiers } created = left at wrote
  generalize isRight : foldOutcome (PlainStore.writeCoin tipHeight)
    (spent.foldl erase plain.tiers) created = right at wrote
  cases wrote with
  | error error => exact .error error
  | @ok _ _ holds =>
    obtain ⟨tiersMirror, sameUndo, sameTip, mtps⟩ := holds
    obtain ⟨finalDisjoint, source⟩ := foldOutcome_writeCoin isRight nodup erasedFree (disjoint.eraseAll spent)
    refine .ok ⟨rfl, ⟨tiersMirror, ?_, sameTip.trans mirrors.tip⟩, finalDisjoint, mtps, rfl, fun key coin found => ?_⟩
    · rw [sameUndo]
      exact mirrors.undo
    refine (source key coin found).imp_right fun before => ?_
    rw [lookup_eraseAll] at before
    split at before
    · cases before
    · next unspent => exact ⟨unspent, before⟩

end Rbtc.Chainstate
