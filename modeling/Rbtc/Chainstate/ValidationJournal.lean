import Rbtc.Chainstate.ChainStore

/-! The validation delta journal: its rows and Bloom filters, its tables and memory, appending a row,
folding all rows. -/

namespace Rbtc.Chainstate

open Foundation Bitcoin

/-- Whether the batch spends the coin that was there before, and the coin it leaves. -/
structure ValidationUpdate where
  spentInBatch : Bool
  utxo : Option Utxo
  deriving DecidableEq, Repr

abbrev ValidationDeltaUpdates := List (OutPointKey × ValidationUpdate)

structure ValidationDelta where
  utxoCount : Nat
  updates : ValidationDeltaUpdates
  deriving DecidableEq, Repr

/-- `RVD4` has a shard for each first key byte, `RVD5` one for each upper half of it. -/
inductive ShardFormat where
  | rvd4
  | rvd5
  deriving DecidableEq, Repr

def ShardFormat.shardCount : ShardFormat → Nat
  | .rvd4 => 256
  | .rvd5 => 16

/-- The first byte of a key. The bound only matters for ids that 32 bytes cannot hold. -/
def firstByte (outpoint : OutPointKey) : Nat := min 255 (outpoint.txid.value / 2 ^ 248)

def validationDeltaShard (format : ShardFormat) (outpoint : OutPointKey) : Nat :=
  match format with
  | .rvd4 => firstByte outpoint
  | .rvd5 => firstByte outpoint / 16

structure ShardedValidationDeltaHeader where
  utxoCount : Nat
  updateCount : Nat
  format : ShardFormat
  populatedShards : Finset Nat
  deriving DecidableEq

inductive ValidationDeltaRecord where
  | legacy (delta : ValidationDelta)
  | sharded (header : ShardedValidationDeltaHeader)
  deriving DecidableEq

/-- The merging walk of `fold_validation_updates`, one round per list entry at most. -/
def foldValidationWalk : Nat → List OutPointKey → List CoinEntry → ValidationDeltaUpdates
  | 0, _, _ | _ + 1, [], [] => []
  | rounds + 1, key :: spent, [] => (key, ⟨true, none⟩) :: foldValidationWalk rounds spent []
  | rounds + 1, [], coin :: created =>
    (coin.1, ⟨false, some coin.2⟩) :: foldValidationWalk rounds [] created
  | rounds + 1, key :: spent, coin :: created =>
    if key < coin.1 then (key, ⟨true, none⟩) :: foldValidationWalk rounds spent (coin :: created)
    else if key = coin.1 then (key, ⟨true, some coin.2⟩) :: foldValidationWalk rounds spent created
    else (coin.1, ⟨false, some coin.2⟩) :: foldValidationWalk rounds (key :: spent) created

def foldValidationUpdates (spent : List OutPointKey) (created : List CoinEntry) :
    ValidationDeltaUpdates :=
  foldValidationWalk (spent.length + created.length) spent created

def encodedUpdateLen (entry : OutPointKey × ValidationUpdate) : Nat :=
  45 + (entry.2.utxo.map fun utxo => 29 + utxo.scriptPubkey.length).getD 0

/-- An offset past 32 bits only occurs in a record that is too large. -/
def encodeValidationDelta (updates : ValidationDeltaUpdates) (utxoCount : Nat) :
    Except UtxoError ValidationDelta := do
  ensure (updates.length < 2 ^ 32) (.malformed "validation delta update count")
  ensure (16 + (updates.map encodedUpdateLen).sum ≤ 512 * 1024 * 1024)
    (.malformed "validation delta record too large")
  return ⟨utxoCount, updates⟩

/-- Each round encodes the run of updates that share the first one's shard. -/
def encodeShardRuns (utxoCount : Nat) : Nat → ValidationDeltaUpdates → Except UtxoError (List (Nat × ValidationDelta))
  | 0, _ | _ + 1, [] => .ok []
  | rounds + 1, first :: rest => do
      let shard := validationDeltaShard .rvd5 first.1
      let inShard := fun (entry : OutPointKey × ValidationUpdate) =>
        decide (validationDeltaShard .rvd5 entry.1 = shard)
      let encoded ← encodeValidationDelta (first :: rest.takeWhile inShard) utxoCount
      let others ← encodeShardRuns utxoCount rounds (rest.dropWhile inShard)
      return (shard, encoded) :: others

def encodeShardedValidationDelta (updates : ValidationDeltaUpdates) (utxoCount : Nat) :
    Except UtxoError (ShardedValidationDeltaHeader × List (Nat × ValidationDelta)) := do
  ensure (updates.length < 2 ^ 32) (.malformed "validation delta update count")
  let shards ← encodeShardRuns utxoCount updates.length updates
  return (⟨utxoCount, updates.length, .rvd5, (shards.map Prod.fst).toFinset⟩, shards)

def validationDeltaRecordHeader : ValidationDeltaRecord → Except UtxoError ValidationDeltaRecord
  | .legacy delta => .ok (.legacy delta)
  | .sharded header => do
      ensure (header.updateCount ≠ 0 ∨ header.populatedShards = ∅)
        (.malformed "empty sharded validation delta has populated shards")
      return .sharded header

def decodeValidationDelta (delta : ValidationDelta) : Except UtxoError (Nat × ValidationDeltaUpdates) := do
  ensure (KeySorted delta.updates) (.malformed "validation delta outpoints are not strictly ordered")
  return (delta.utxoCount, delta.updates)

def decodeShard (header : ShardedValidationDeltaHeader) (loadShard : Nat → Except UtxoError ValidationDelta)
    (updates : ValidationDeltaUpdates) (shard : Nat) : Except UtxoError ValidationDeltaUpdates :=
  if shard ∈ header.populatedShards then do
    let encoded ← loadShard shard
    let (utxoCount, shardUpdates) ← decodeValidationDelta encoded
    ensure (utxoCount = header.utxoCount ∧ shardUpdates ≠ [] ∧
        ∀ entry ∈ shardUpdates, validationDeltaShard header.format entry.1 = shard)
      (.malformed "validation delta shard content mismatch")
    return updates ++ shardUpdates
  else .ok updates

def decodeValidationDeltaRecord (record : ValidationDeltaRecord)
    (loadShard : Nat → Except UtxoError ValidationDelta) :
    Except UtxoError (Nat × ValidationDeltaUpdates) := do
  match ← validationDeltaRecordHeader record with
  | .legacy delta => decodeValidationDelta delta
  | .sharded header => do
      let updates ← foldOutcome (decodeShard header loadShard) [] (List.range header.format.shardCount)
      ensure (updates.length = header.updateCount) (.malformed "validation delta shard count mismatch")
      return (header.utxoCount, updates)

@[ext] structure ValidationBloom where
  byteCount : Nat
  bits : Finset Nat
  deriving DecidableEq

def validationBloomByteCount (updateCount : Nat) : Except UtxoError Nat := do
  ensure (updateCount * 10 < 2 ^ 64) (.malformed "validation bloom size overflow")
  return max ((updateCount * 10 + 7) / 8) 1

namespace ValidationBloom

def withUpdateCount (updateCount : Nat) : Except UtxoError ValidationBloom := do
  let byteCount ← validationBloomByteCount updateCount
  return ⟨byteCount, ∅⟩

-- `validation_bloom_hashes`, the first bit and the step of a key's probes: what holds of the filters
-- does not depend on the words it mixes.
variable (bloomHashes : OutPointKey → UInt64 × UInt64)

def bit (bloom : ValidationBloom) (outpoint : OutPointKey) (probe : UInt64) : Nat :=
  ((bloomHashes outpoint).1 + probe * (bloomHashes outpoint).2).toNat % (bloom.byteCount * 8)

def insert (bloom : ValidationBloom) (outpoint : OutPointKey) : ValidationBloom :=
  { bloom with bits := bloom.bits ∪ {bloom.bit bloomHashes outpoint 0, bloom.bit bloomHashes outpoint 1,
      bloom.bit bloomHashes outpoint 2} }

def insertAll (bloom : ValidationBloom) (updates : ValidationDeltaUpdates) : ValidationBloom :=
  updates.foldl (fun filter entry => filter.insert bloomHashes entry.1) bloom

end ValidationBloom

/-- The durable tables: rows by height, shards, and filters with the coin count recorded in them. -/
@[ext] structure ValidationTables where
  deltas : Table Nat ValidationDeltaRecord
  deltaShards : Table (Nat × Nat) ValidationDelta
  rowBlooms : Table Nat (Nat × ValidationBloom)
  groupBlooms : Table Nat (Nat × ValidationBloom)
  deriving DecidableEq

structure ValidationJournalRow where
  height : Nat
  bloom : ValidationBloom
  deriving DecidableEq

/-- What an open store knows of its journal. `legacyHits` only advises which row to split next. -/
@[ext] structure ValidationJournal where
  rows : List ValidationJournalRow
  groups : List ValidationBloom
  legacyHits : Table Nat Nat
  utxoCount : Nat
  deriving DecidableEq

def rowsPerBloomGroup : Nat := 16

def groupBloomUpdates : Nat := 16000000

namespace ValidationTables

def empty : ValidationTables := ⟨∅, ∅, ∅, ∅⟩

variable (tables : ValidationTables)

def loadRow (height : Nat) : Except UtxoError ValidationDeltaRecord :=
  require (tables.deltas.lookup height) (.malformed "missing validation delta row")

def loadShard (height shard : Nat) : Except UtxoError ValidationDelta :=
  require (tables.deltaShards.lookup (height, shard)) (.malformed "missing validation delta shard")

def writeShards (height : Nat) (header : ShardedValidationDeltaHeader)
    (shards : List (Nat × ValidationDelta)) : ValidationTables :=
  { tables with
    deltas := tables.deltas.insert height (.sharded header)
    deltaShards := tables.deltaShards.insertAll (shards.map fun shard => ((height, shard.1), shard.2)) }

def decodeRow (height : Nat) :
    Except UtxoError (Nat × ValidationDeltaUpdates) := do
  let record ← tables.loadRow height
  decodeValidationDeltaRecord record (tables.loadShard height)

end ValidationTables

section
variable (bloomHashes : OutPointKey → UInt64 × UInt64)

namespace ValidationJournal

variable (journal : ValidationJournal)

def nextUtxoCount (spentCount createdCount : Nat) :
    Except UtxoError Nat := do
  ensure (spentCount ≤ journal.utxoCount) (.malformed "validation UTXO count overflow")
  require (checkedAdd 64 (journal.utxoCount - spentCount) createdCount)
    (.malformed "validation UTXO count overflow")

def nextGroup : Except UtxoError ValidationBloom :=
  if journal.rows.length % rowsPerBloomGroup = 0 then ValidationBloom.withUpdateCount groupBloomUpdates
  else require journal.groups.getLast?
    (.malformed "continuing validation row has an existing bloom group")

def groupsWith (group : ValidationBloom) : List ValidationBloom :=
  if journal.rows.length % rowsPerBloomGroup = 0 then journal.groups ++ [group]
  else journal.groups.dropLast ++ [group]

def appendRow (tables : ValidationTables) (height : Nat)
    (updates : ValidationDeltaUpdates) (utxoCount : Nat) :
    Except UtxoError (ValidationTables × ValidationJournal) := do
  let (header, shards) ← encodeShardedValidationDelta updates utxoCount
  let emptyBloom ← ValidationBloom.withUpdateCount updates.length
  let group ← journal.nextGroup
  let bloom := emptyBloom.insertAll bloomHashes updates
  let updatedGroup := group.insertAll bloomHashes updates
  let groupIndex := journal.rows.length / rowsPerBloomGroup
  ensure (groupIndex < 2 ^ 32) (.malformed "validation bloom group index overflow")
  ensure (tables.deltas.lookup height = none) (.malformed "duplicate validation delta checkpoint")
  return ({ tables.writeShards height header shards with
      rowBlooms := tables.rowBlooms.insert height (utxoCount, bloom)
      groupBlooms := tables.groupBlooms.insert groupIndex (0, updatedGroup) },
    { journal with
      rows := journal.rows ++ [⟨height, bloom⟩]
      groups := journal.groupsWith updatedGroup
      utxoCount })

end ValidationJournal

end

/-- A key keeps the spend mark of the first row that mentions it and the coin of the last. -/
def mergeUpdate (merged : Table OutPointKey ValidationUpdate) (entry : OutPointKey × ValidationUpdate) :
    Table OutPointKey ValidationUpdate :=
  match merged.lookup entry.1 with
  | some current => merged.insert entry.1 { current with utxo := entry.2.utxo }
  | none => merged.insert entry.1 entry.2

def mergeRow (tables : ValidationTables) (merged : Table OutPointKey ValidationUpdate)
    (row : ValidationJournalRow) : Except UtxoError (Table OutPointKey ValidationUpdate) := do
  let (_, updates) ← tables.decodeRow row.height
  return updates.foldl mergeUpdate merged

def spentOf (merged : Table OutPointKey ValidationUpdate) : List OutPointKey :=
  ((sortedEntries merged).filter fun entry => entry.2.spentInBatch).map Prod.fst

def createdOf (merged : Table OutPointKey ValidationUpdate) : List CoinEntry :=
  (sortedEntries merged).filterMap fun entry => entry.2.utxo.map (entry.1, ·)

end Rbtc.Chainstate
