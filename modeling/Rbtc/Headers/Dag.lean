import Rbtc.Bitcoin.Primitives
import Rbtc.Foundation.NetChange
import Rbtc.Foundation.Words
import Mathlib.Data.Nat.Pairing

/-! The header DAG: network rules, the cumulative-work active chain, contextual validation, and guarded
mutations that are taken back unless committed. -/

namespace Rbtc.Headers

open Bitcoin

def maxFutureBlockTimeSecs : Nat := 2 * 60 * 60

def maxTimewarpSecs : Nat := 10 * 60

def coreParams (crate : HeaderCrate) (network : Network) : Params :=
  if network = .regtest then
    { crate.paramsNew network with powTargetTimespan := 24 * 60 * 60 }
  else crate.paramsNew network

structure ActivationHeights where
  bip34 : Nat
  bip65 : Nat
  bip66 : Nat
  csv : Nat
  segwit : Nat
  deriving DecidableEq, Repr

def activationHeights : Network → ActivationHeights
  | .bitcoin =>
    { bip34 := 227931, bip65 := 388381, bip66 := 363725, csv := 419328, segwit := 481824 }
  | .testnet =>
    { bip34 := 21111, bip65 := 581885, bip66 := 330776, csv := 770112, segwit := 834624 }
  | .testnet4 | .signet => { bip34 := 1, bip65 := 1, bip66 := 1, csv := 1, segwit := 1 }
  | .regtest => { bip34 := 1, bip65 := 1, bip66 := 1, csv := 1, segwit := 0 }

/-- The deployment settings header validation reads. Regtest may override the heights. -/
structure DeploymentConfig where
  network : Network
  activationHeights : ActivationHeights
  deriving DecidableEq, Repr

def DeploymentConfig.forNetwork (network : Network) : DeploymentConfig :=
  { network, activationHeights := Headers.activationHeights network }

def minimumBlockVersionForHeights (heights : ActivationHeights) (height : Nat) : Int :=
  if heights.bip65 ≤ height then 4
  else if heights.bip66 ≤ height then 3
  else if heights.bip34 ≤ height then 2
  else 1

def DeploymentConfig.minimumBlockVersion (config : DeploymentConfig) (height : Nat) : Int :=
  minimumBlockVersionForHeights config.activationHeights height

def checkpoints : Network → List (Nat × BlockHash)
  | .bitcoin =>
    [(11111, ⟨0x0000000069e244f73d78e8fd29ba2fd2ed618bd6fa2ee92559f542fdb26e7c1d⟩),
     (33333, ⟨0x000000002dd5588a74784eaa7ab0507a18ad16a236e7b1ce69f00d7ddfb5d0a6⟩),
     (74000, ⟨0x0000000000573993a3c9e41ce34471c079dcf5f52a0e824a81e7f953b8661a20⟩),
     (105000, ⟨0x00000000000291ce28027faea320c8d2b054b2e0fe44a773f3eefb151d6bdc97⟩),
     (134444, ⟨0x00000000000005b12ffd4cd315cd34ffd4a594f430ac814c91184a0d42d2b0fe⟩),
     (168000, ⟨0x000000000000099e61ea72015e79632f216fe6cb33d7899acb35b75c8303b763⟩),
     (193000, ⟨0x000000000000059f452a5f7340de6682a977387c17010ff6e6c3bd83ca8b1317⟩),
     (210000, ⟨0x000000000000048b95347e83192f69cf0366076336c639f9b7228e9ba171342e⟩),
     (216116, ⟨0x00000000000001b4f4b433e81ee46494af945cf96014816a4e2370f11b23df4e⟩),
     (225430, ⟨0x00000000000001c108384350f74090433e7fcf79a606b8e797f065b130575932⟩),
     (250000, ⟨0x000000000000003887df1f29024b06fc2200b55f8af8f35453d7be294df2d214⟩),
     (279000, ⟨0x0000000000000001ae8c72a0b0c301f67e3afca10e819efa9041e458e9bd7e40⟩),
     (295000, ⟨0x00000000000000004d9b4ef50f0f9d686fd69db2e03af35a100370c64632a983⟩)]
  | .testnet => [(546, ⟨0x000000002a936ca763904c3c35fce2f3556c559c0214345d31b1bcebf76acb70⟩)]
  | .testnet4 | .signet | .regtest => []

def checkpointHeights (network : Network) : List Nat := (checkpoints network).map Prod.fst

def checkpointHash (network : Network) (height : Nat) : Option BlockHash :=
  ((checkpoints network).find? fun checkpoint => checkpoint.1 = height).map Prod.snd

open Foundation

structure HeaderInfo where
  header : Header
  hash : BlockHash
  height : Nat
  chainwork : Nat
  deriving DecidableEq, Repr

inductive PowError where
  | badProofOfWork
  | badTarget
  deriving DecidableEq, Repr

inductive HeaderError where
  | duplicate (hash : BlockHash)
  | unknownParent (hash : BlockHash)
  | invalidTarget
  | invalidProofOfWork (error : PowError)
  | heightOverflow
  | timeTooOld (time median : Nat)
  | timeWarp (time minimum : Nat)
  | timeTooNew (time maximum : Nat)
  | missingRetargetAncestor (height : Nat)
  | unexpectedDifficulty (expected actual : Nat)
  | checkpointMismatch (height : Nat) (expected actual : BlockHash)
  | forkBeforeCheckpoint (height checkpointHeight : Nat)
  | obsoleteVersion (height : Nat) (required actual : Int)
  deriving DecidableEq, Repr

def genesisInfo (crate : HeaderCrate) (network : Network) : HeaderInfo :=
  let header := crate.genesisHeader network
  { header
    hash := crate.blockHash header
    height := 0
    chainwork := crate.toWork (crate.target header) }

/-- In-memory header DAG with the best-work tip selected independently of arrival order. -/
@[ext] structure HeaderDag where
  params : Params
  deployments : DeploymentConfig
  headers : Table BlockHash HeaderInfo
  childCounts : Option (Table BlockHash Nat)
  activeTip : BlockHash
  activeChain : List BlockHash
  deriving DecidableEq

namespace HeaderDag

section
variable (dag : HeaderDag)

def activeTipInfo : Outcome HeaderError HeaderInfo :=
  require (dag.headers.lookup dag.activeTip) .panicked

def activeHeaderAt (height : Nat) : Option HeaderInfo :=
  dag.activeChain[height]?.bind fun hash => dag.headers.lookup hash

def activeHeightOf (hash : BlockHash) : Option Nat :=
  (dag.headers.lookup hash).bind fun info =>
    if dag.activeChain[info.height]? = some hash then some info.height else none

def ancestorTimes : Nat → HeaderInfo → List Nat
  | 0, current => [current.header.time]
  | count + 1, current =>
    current.header.time ::
      match dag.headers.lookup current.header.prevBlockhash with
      | none => []
      | some parent => ancestorTimes count parent

def medianTimePast (hash : BlockHash) : Option Nat :=
  (dag.headers.lookup hash).map fun info =>
    let times := (dag.ancestorTimes 10 info).insertionSort (· ≤ ·)
    times.getD (times.length / 2) 0

/-- The loop of `ancestor_at_height`; the height difference bounds the rounds. -/
def ancestorWalk : Nat → HeaderInfo → Option HeaderInfo
  | 0, current => some current
  | rounds + 1, current =>
    (dag.headers.lookup current.header.prevBlockhash).bind fun parent =>
      ancestorWalk rounds parent

def ancestorAtHeight (current : HeaderInfo) (height : Nat) : Option HeaderInfo :=
  (dag.ancestorWalk (current.height - height) current).bind fun ancestor =>
    if ancestor.height = height then some ancestor else none

def lastKnownCheckpointHeight : Option Nat :=
  (checkpointHeights dag.params.network).reverse.find? fun height =>
    match checkpointHash dag.params.network height with
    | some hash => decide (hash ∈ dag.headers)
    | none => false

/-- The walk back over minimum-difficulty headers, one round per height at most. -/
def lastRegularBits (interval powLimit : Nat) : Nat → HeaderInfo → Outcome HeaderError Nat
  | 0, cursor => .ok cursor.header.bits
  | rounds + 1, cursor =>
    if cursor.height % interval ≠ 0 ∧ cursor.header.bits = powLimit then do
      let parent ← require (dag.headers.lookup cursor.header.prevBlockhash)
        (.refused (.missingRetargetAncestor (cursor.height - 1)))
      lastRegularBits interval powLimit rounds parent
    else .ok cursor.header.bits

end

section
variable (crate : HeaderCrate) (dag : HeaderDag)

def expectedNextBits (candidate : Header) : Outcome HeaderError Nat := do
  let parent ← require (dag.headers.lookup candidate.prevBlockhash)
    (.refused (.unknownParent candidate.prevBlockhash))
  let nextHeight ← require (checkedAdd 32 parent.height 1) (.refused .heightOverflow)
  let interval := dag.params.difficultyAdjustmentInterval
  if nextHeight % interval = 0 then
    let boundaryHeight := nextHeight - interval
    let boundary ← require (dag.ancestorAtHeight parent boundaryHeight)
      (.refused (.missingRetargetAncestor boundaryHeight))
    let elapsed := parent.header.time - boundary.header.time
    -- BIP94 keeps the actual difficulty in the first header of each period.
    let baseBits :=
      if dag.params.network = .testnet4 then boundary.header.bits else parent.header.bits
    return crate.fromNextWorkRequired baseBits elapsed dag.params
  else if dag.params.noPowRetargeting then return parent.header.bits
  else if ¬ dag.params.allowMinDifficultyBlocks then return parent.header.bits
  else if candidate.time > saturatingAdd 32 parent.header.time (dag.params.powTargetSpacing * 2) then
    return crate.toCompactLossy dag.params.maxAttainableTarget
  else
    dag.lastRegularBits interval (crate.toCompactLossy dag.params.maxAttainableTarget) parent.height parent

def validatePow (header : Header) (required : Nat) : Outcome HeaderError Unit := do
  ensure (crate.target header = required) (.refused (.invalidProofOfWork .badTarget))
  ensure ((crate.blockHash header).value ≤ required) (.refused (.invalidProofOfWork .badProofOfWork))

end

def validateBip94Time (params : Params) (height parentTime candidateTime : Nat) :
    Outcome HeaderError Unit :=
  if params.network = .testnet4 ∧ height % params.difficultyAdjustmentInterval = 0 then
    ensure (parentTime - maxTimewarpSecs ≤ candidateTime)
      (.refused (.timeWarp candidateTime (parentTime - maxTimewarpSecs)))
  else .ok ()

section
variable (dag : HeaderDag)

def restoreRetainedHeader (info : HeaderInfo) : HeaderDag :=
  { dag with
    headers := dag.headers.insert info.hash info
    childCounts := dag.childCounts.map fun counts => counts.increment info.header.prevBlockhash }

def removeRetainedHeader (hash : BlockHash) : HeaderDag :=
  match dag.headers.lookup hash with
  | none => dag
  | some info =>
    { dag with
      headers := dag.headers.erase hash
      childCounts := dag.childCounts.map fun counts =>
        counts.decrement info.header.prevBlockhash }

end

section
variable (dag : HeaderDag)

/-- The suffix walk of `rebuild_active_chain`; it panics when it misses a header or outlives the heights. -/
def rebuildWalk : Nat → HeaderInfo → List BlockHash → Outcome HeaderError (List BlockHash)
  | 0, _, _ => .error .panicked
  | rounds + 1, current, suffix =>
    if dag.activeChain[current.height]? = some current.hash then
      .ok (dag.activeChain.take (current.height + 1) ++ suffix)
    else do
      let parent ← require (dag.headers.lookup current.header.prevBlockhash) .panicked
      rebuildWalk rounds parent (current.hash :: suffix)

def rebuildActiveChain (info : HeaderInfo) : Outcome HeaderError HeaderDag := do
  let chain ← dag.rebuildWalk (info.height + 1) info []
  return { dag with activeChain := chain, activeTip := info.hash }

def promoteActiveTip (info : HeaderInfo) : Outcome HeaderError HeaderDag :=
  if info.header.prevBlockhash = dag.activeTip ∧ info.height = dag.activeChain.length then
    .ok { dag with activeChain := dag.activeChain ++ [info.hash], activeTip := info.hash }
  else dag.rebuildActiveChain info

end

variable (crate : HeaderCrate)

def withDeployments (deployments : DeploymentConfig) : HeaderDag :=
  let info := genesisInfo crate deployments.network
  { params := coreParams crate deployments.network
    deployments
    headers := Table.singleton info.hash info
    childCounts := none
    activeTip := info.hash
    activeChain := [info.hash] }

variable (dag : HeaderDag)

def validateCheckpoint (network : Network) (height : Nat) (hash : BlockHash) :
    Outcome HeaderError Unit :=
  match checkpointHash network height with
  | some expected =>
    ensure (hash = expected) (.refused (.checkpointMismatch height expected hash))
  | none => .ok ()

variable (header : Header)

def structuralInfo : Outcome HeaderError HeaderInfo := do
  let hash := crate.blockHash header
  ensure (hash ∉ dag.headers) (.refused (.duplicate hash))
  let parent ← require (dag.headers.lookup header.prevBlockhash)
    (.refused (.unknownParent header.prevBlockhash))
  let height ← require (checkedAdd 32 parent.height 1) (.refused .heightOverflow)
  validateCheckpoint dag.params.network height hash
  let target := crate.target header
  ensure (target ≠ 0 ∧ target ≤ dag.params.maxAttainableTarget) (.refused .invalidTarget)
  validatePow crate header target
  return { header, hash, height, chainwork := addWork parent.chainwork (crate.toWork target) }

/-- The mutations of `insert`: the header is retained, and promoted if it has more chainwork. -/
def retainInfo (info : HeaderInfo) : Outcome HeaderError HeaderDag := do
  let retained := dag.restoreRetainedHeader info
  let tip ← retained.activeTipInfo
  if tip.chainwork < info.chainwork then retained.promoteActiveTip info else return retained

def insert : Outcome HeaderError (HeaderDag × HeaderInfo) := do
  let info ← dag.structuralInfo crate header
  let next ← dag.retainInfo info
  return (next, info)

def validateForkHeight (height : Nat) : Outcome HeaderError Unit :=
  match dag.lastKnownCheckpointHeight with
  | some checkpointHeight =>
    ensure (checkpointHeight ≤ height) (.refused (.forkBeforeCheckpoint height checkpointHeight))
  | none => .ok ()

/-- The contextual checks of `insert_contextual`, in the order it makes them. -/
def validateContext (adjustedTime : Nat) : Outcome HeaderError Unit := do
  let hash := crate.blockHash header
  ensure (hash ∉ dag.headers) (.refused (.duplicate hash))
  let parent ← require (dag.headers.lookup header.prevBlockhash)
    (.refused (.unknownParent header.prevBlockhash))
  let height ← require (checkedAdd 32 parent.height 1) (.refused .heightOverflow)
  dag.validateForkHeight height
  let required := dag.deployments.minimumBlockVersion height
  ensure (required ≤ header.version) (.refused (.obsoleteVersion height required header.version))
  let median ← require (dag.medianTimePast parent.hash) .panicked
  ensure (median < header.time) (.refused (.timeTooOld header.time median))
  validateBip94Time dag.params height parent.header.time header.time
  let maximum := saturatingAdd 32 adjustedTime maxFutureBlockTimeSecs
  ensure (header.time ≤ maximum) (.refused (.timeTooNew header.time maximum))
  let expected ← dag.expectedNextBits crate header
  ensure (header.bits = expected) (.refused (.unexpectedDifficulty expected header.bits))

/-- Inserts a header after its contextual checks. -/
def insertContextual (adjustedTime : Nat) :
    Outcome HeaderError (HeaderDag × HeaderInfo) := do
  dag.validateContext crate header adjustedTime
  dag.insert crate header

end HeaderDag

/-- An atomically staged header batch: the DAG it has already changed, and what dropping the guard
needs to undo that. -/
structure StagedHeaderBatch where
  dag : HeaderDag
  accepted : List HeaderInfo
  inserted : List BlockHash
  originalActiveTip : BlockHash
  originalActiveLen : Nat
  rebuiltActiveChain : Bool

namespace StagedHeaderBatch

def commit (staged : StagedHeaderBatch) : HeaderDag × List HeaderInfo :=
  (staged.dag, staged.accepted)

def rollback (staged : StagedHeaderBatch) : Outcome HeaderError HeaderDag := do
  let removed := staged.inserted.reverse.foldl HeaderDag.removeRetainedHeader staged.dag
  let original ← require (removed.headers.lookup staged.originalActiveTip) .panicked
  if staged.rebuiltActiveChain then removed.rebuildActiveChain original
  else return { removed with
    activeChain := removed.activeChain.take staged.originalActiveLen
    activeTip := staged.originalActiveTip }

end StagedHeaderBatch

/-- How staging ends: with a guard, with an error after the guard was dropped, or in a panic. -/
inductive StageResult (ε γ : Type) where
  | staged (guard : γ)
  | refused (error : ε) (dag : HeaderDag)
  | panicked

def StageResult.guard? {ε γ : Type} : StageResult ε γ → Option γ
  | .staged guard => some guard
  | .refused _ _ | .panicked => none

namespace HeaderDag

variable (crate : HeaderCrate) (dag : HeaderDag)

def insertionRebuildsActiveChain (header : Header) : Outcome HeaderError Bool :=
  match dag.headers.lookup header.prevBlockhash with
  | none => .ok false
  | some parent =>
    match checkedAdd 32 parent.height 1 with
    | none => .ok false
    | some height => do
        let chainwork := addWork parent.chainwork (crate.toWork (crate.target header))
        let tip ← dag.activeTipInfo
        return decide (tip.chainwork < chainwork ∧ ¬ (parent.hash = dag.activeTip ∧ height = dag.activeChain.length))

/-- One round of the staging loop; an error carries the guard that is then dropped. -/
def stageHeader (staged : StagedHeaderBatch) (header : Header) (adjustedTime : Nat) :
    Except (Fault HeaderError × StagedHeaderBatch) StagedHeaderBatch :=
  match staged.dag.insertionRebuildsActiveChain crate header with
  | .error fault => .error (fault, staged)
  | .ok rebuilds =>
    match staged.dag.insertContextual crate header adjustedTime with
    | .error fault => .error (fault, staged)
    | .ok (next, info) =>
      .ok { staged with
        dag := next
        accepted := staged.accepted ++ [info]
        inserted := staged.inserted ++ [info.hash]
        rebuiltActiveChain := staged.rebuiltActiveChain || rebuilds }

def openBatch : StagedHeaderBatch :=
  { dag
    accepted := []
    inserted := []
    originalActiveTip := dag.activeTip
    originalActiveLen := dag.activeChain.length
    rebuiltActiveChain := false }

def stageBatchContextual (headers : List Header) (adjustedTime : Nat) :
    StageResult HeaderError StagedHeaderBatch :=
  match foldOutcome (fun staged header => stageHeader crate staged header adjustedTime)
      dag.openBatch headers with
  | .ok staged => .staged staged
  | .error (.panicked, _) => .panicked
  | .error (.refused error, staged) =>
    match staged.rollback with
    | .ok restored => .refused error restored
    | .error _ => .panicked

end HeaderDag

inductive HeaderRetentionError where
  | resourceDeferred (limit : Nat)
  | protectedHeader (hash : BlockHash)
  | hasChildren (hash : BlockHash)
  | unknown (hash : BlockHash)
  deriving DecidableEq, Repr

structure StagedHeaderEviction where
  dag : HeaderDag
  removed : List HeaderInfo

namespace StagedHeaderEviction

def commit (stage : StagedHeaderEviction) : HeaderDag := stage.dag

/-- What dropping the guard leaves: the removed headers restored in reverse. -/
def restore (stage : StagedHeaderEviction) : HeaderDag :=
  stage.removed.reverse.foldl HeaderDag.restoreRetainedHeader stage.dag

end StagedHeaderEviction

namespace HeaderDag

variable (dag : HeaderDag)

def childCount (headers : Table BlockHash HeaderInfo) (parent : BlockHash) : Nat :=
  headers.total fun _ info =>
    if 0 < info.height ∧ info.header.prevBlockhash = parent then 1 else 0

/-- The child index `stage_leaf_evictions` builds on its first use; increments commute. -/
def buildChildCounts (headers : Table BlockHash HeaderInfo) : Table BlockHash Nat :=
  (headers.entries.filter fun entry => 0 < entry.2.height).foldl
    (fun (counts : Table BlockHash Nat) (entry : (_ : BlockHash) × HeaderInfo) =>
      counts.increment entry.2.header.prevBlockhash) ∅

def indexChildren (hashes : List BlockHash) : HeaderDag :=
  if dag.childCounts = none ∧ hashes ≠ [] then
    { dag with childCounts := some (buildChildCounts dag.headers) }
  else dag

def hasIndexedChild (hash : BlockHash) : Bool :=
  match dag.childCounts with
  | none => false
  | some counts => decide (hash ∈ counts)

/-- One round of the eviction loop; an error carries the guard that is then dropped. -/
def stageEviction (pinnedTips : List BlockHash) (stage : StagedHeaderEviction) (hash : BlockHash) :
    Except (HeaderRetentionError × StagedHeaderEviction) StagedHeaderEviction := do
  let info ← require (stage.dag.headers.lookup hash) (.unknown hash, stage)
  ensure (stage.dag.activeHeightOf hash = none ∧ hash ∉ pinnedTips) (.protectedHeader hash, stage)
  ensure (stage.dag.hasIndexedChild hash = false) (.hasChildren hash, stage)
  return { dag := stage.dag.removeRetainedHeader hash, removed := stage.removed ++ [info] }

def stageLeafEvictions (hashes pinnedTips : List BlockHash) (maxEntries : Nat) :
    StageResult HeaderRetentionError StagedHeaderEviction :=
  if maxEntries < hashes.length then .refused (.resourceDeferred maxEntries) dag
  else
    match pinnedTips.find? fun hash => dag.headers.lookup hash = none with
    | some hash => .refused (.unknown hash) dag
    | none =>
      match foldOutcome (stageEviction pinnedTips)
          { dag := dag.indexChildren hashes, removed := [] } hashes with
      | .ok stage => .staged stage
      | .error (error, stage) => .refused error stage.restore

end HeaderDag

/-! A regtest instance of the header functions, with two branches of any length. -/

namespace Fixture

def bits : Nat := 0x207fffff

/-- Nonce 0 is genesis, and the header at height `h ≥ 1` of branch `b < 2` has nonce `2 * h + b`. -/
def header (nonce : Nat) : Header :=
  { version := 4
    prevBlockhash :=
      if nonce < 2 then ⟨0⟩ else if nonce < 4 then ⟨2⟩ else ⟨2 * (nonce - 2) + 2⟩
    merkleRoot := ⟨0⟩
    time := nonce / 2 + 1
    bits
    nonce }

def encodeInt : Int → Nat
  | .ofNat value => 2 * value
  | .negSucc value => 2 * value + 1

def encode (header : Header) : Nat :=
  Nat.pair (encodeInt header.version) (Nat.pair header.prevBlockhash.value
    (Nat.pair header.merkleRoot.value (Nat.pair header.time (Nat.pair header.bits header.nonce))))

def blockHash (candidate : Header) : BlockHash :=
  if candidate = header candidate.nonce then ⟨2 * candidate.nonce + 2⟩
  else ⟨2 * encode candidate + 3⟩

def params (network : Network) : Params :=
  { network
    powTargetTimespan := 14 * 24 * 60 * 60
    powTargetSpacing := 10 * 60
    maxAttainableTarget := 2 ^ 32
    noPowRetargeting := true
    allowMinDifficultyBlocks := true }

def crate : HeaderCrate :=
  { blockHash
    target := fun _ => 2 ^ 32
    toWork := fun _ => 1
    toCompactLossy := fun _ => bits
    fromNextWorkRequired := fun previous _ _ => previous
    genesisHeader := fun _ => header 0
    paramsNew := params }

def deployments : DeploymentConfig := .forNetwork .regtest

def origin : HeaderDag := .withDeployments crate deployments

def branch (side count : Nat) : List Header :=
  (List.range count).map fun index => header (2 * (index + 1) + side)

end Fixture

end Rbtc.Headers
