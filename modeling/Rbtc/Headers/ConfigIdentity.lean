import Rbtc.Foundation.Words
import Rbtc.Headers.Dag

/-! Deployment configurations and the bytes that bind a store to one (`deployments.rs`). -/

namespace Rbtc.Headers

open Foundation Bitcoin List

@[ext] structure VersionBitsParams where
  period : BitVec 32
  threshold : BitVec 32
  startTime : BitVec 64
  timeout : BitVec 64
  minActivationHeight : BitVec 32

/-- The whole configuration but for the cache of threshold states. -/
structure DeploymentSettings extends DeploymentConfig where
  taproot : VersionBitsParams
  signetChallenge : Option (List Nat)
  customSignet : Bool

inductive DeploymentConfigError where
  | regtestOnly
  | testActivationRegtestOnly
  | malformed
  | unknownDeployment (name : String)
  | startTime (field : String)
  | timeout (field : String)
  | minimumActivationHeight (field : String)
  | testActivationMalformed
  | unknownBuriedDeployment (name : String)
  | buriedActivationHeight (value : String)
  | signetOnly

def defaultSignetChallenge : List Nat :=
  bigEndian 71 0x512103ad5e0edad18cb1f0fc0d28a3d4f1f3e445640337489abb10404f2d1e086be430210359ef5021964fe22d6f8e05b2463c9540ce96883fe3b278760f048f5189f2e6c452ae

def taprootParams : Network → VersionBitsParams
  | .bitcoin => ⟨2_016, 1_815, 1_619_222_400, 1_628_640_000, 709_632⟩
  | .testnet => ⟨2_016, 1_512, 1_619_222_400, 1_628_640_000, 0⟩
  | .regtest => ⟨144, 108, .ofInt 64 (-1), .intMax 64, 0⟩
  | .testnet4 | .signet => ⟨2_016, 1_815, .ofInt 64 (-1), .intMax 64, 0⟩

def networkTag : Network → Nat
  | .bitcoin => 1
  | .testnet => 2
  | .testnet4 => 3
  | .signet => 4
  | .regtest => 5

def halvingInterval : Network → Nat
  | .regtest => 150
  | _ => 210_000

/-- The integer parsers of the standard library. -/
structure Parsers where
  i64 : String → Option (BitVec 64)
  i32 : String → Option (BitVec 32)
  u32 : String → Option (BitVec 32)

/-- Numbers of given widths as bytes, the least significant first. -/
def leBytes (fields : List (Nat × Nat)) : List Nat := fields.flatMap fun field => (bigEndian field.1 field.2).reverse

namespace DeploymentSettings

def forNetwork (network : Network) : DeploymentSettings :=
  { DeploymentConfig.forNetwork network with
    taproot := taprootParams network
    signetChallenge := if network = .signet then some defaultSignetChallenge else none
    customSignet := false }

variable (parsers : Parsers) (settings : DeploymentSettings)

def setSignetChallenge (challenge : List Nat) : Except DeploymentConfigError DeploymentSettings := do
  ensure (settings.network = .signet) .signetOnly
  return { settings with signetChallenge := some challenge, customSignet := true }

def applyVbparams (value : String) : Except DeploymentConfigError DeploymentSettings := do
  ensure (settings.network = .regtest) .regtestOnly
  let fields := value.splitOn ":"
  ensure (3 ≤ fields.length ∧ fields.length ≤ 4) .malformed
  ensure (fields.getD 0 "" = "taproot") (.unknownDeployment (fields.getD 0 ""))
  let startTime ← require (parsers.i64 (fields.getD 1 "")) (.startTime (fields.getD 1 ""))
  let timeout ← require (parsers.i64 (fields.getD 2 "")) (.timeout (fields.getD 2 ""))
  let minActivationHeight ← (match fields[3]? with
    | none => .ok 0
    | some height => require (parsers.i32 height) (.minimumActivationHeight height))
  return { settings with taproot := ⟨144, 108, startTime, timeout, minActivationHeight⟩ }

def applyTestActivationHeight (value : String) : Except DeploymentConfigError DeploymentSettings := do
  ensure (settings.network = .regtest) .testActivationRegtestOnly
  let name :: first :: others := value.splitOn "@" | .error .testActivationMalformed
  let parsed := (parsers.u32 ("@".intercalate (first :: others))).filter fun height => height.toNat < 2 ^ 31 - 1
  let height ← require parsed (.buriedActivationHeight value)
  let heights := settings.activationHeights
  let overridden ← (match name with
    | "bip34" => .ok { heights with bip34 := height.toNat }
    | "dersig" => .ok { heights with bip66 := height.toNat }
    | "cltv" => .ok { heights with bip65 := height.toNat }
    | "csv" => .ok { heights with csv := height.toNat }
    | "segwit" => .ok { heights with segwit := height.toNat }
    | _ => .error (.unknownBuriedDeployment name))
  return { settings with activationHeights := overridden }

def buried : Bool := settings.activationHeights ≠ Headers.activationHeights settings.network

/-- Nothing when the code panics: on a custom signet without a challenge, or with one of 2^32 bytes. -/
def challengeBytes : Option (List Nat) :=
  if settings.customSignet then do
    let challenge ← settings.signetChallenge
    if challenge.length < 2 ^ 32 then some (leBytes [(4, challenge.length)] ++ challenge) else none
  else some []

def fixedFields : List (Nat × Nat) :=
  [(4, settings.taproot.period.toNat), (4, settings.taproot.threshold.toNat), (8, settings.taproot.startTime.toNat),
    (8, settings.taproot.timeout.toNat), (4, settings.taproot.minActivationHeight.toNat)]

def heightFields : List (Nat × Nat) :=
  [(4, settings.activationHeights.bip34), (4, settings.activationHeights.bip65),
    (4, settings.activationHeights.bip66), (4, settings.activationHeights.csv), (4, settings.activationHeights.segwit)]

def encodingVersion : Nat := if settings.customSignet then 3 else if settings.buried then 2 else 1

def encodedParts (challenge : List Nat) : List Nat :=
  leBytes settings.fixedFields ++ ((if settings.buried then leBytes settings.heightFields else []) ++ challenge)

def legacyConsensusId : Option (List Nat) :=
  settings.challengeBytes.map fun challenge => settings.encodingVersion :: settings.encodedParts challenge

def consensusId : Option (List Nat) :=
  settings.legacyConsensusId.map fun encoded => match encoded with
    | [] => [networkTag settings.network]
    | version :: rest => (match version with
      | 2 => 5
      | 3 => 6
      | _ => 4) :: rest ++ [networkTag settings.network]

/-- What accepted settings make of the default of a network. -/
inductive Obtainable : DeploymentSettings → Prop where
  | default (network : Network) : Obtainable (forNetwork network)
  | set {before after : DeploymentSettings} {challenge : List Nat} {value : String} (earlier : Obtainable before)
      (accepted : before.setSignetChallenge challenge = .ok after ∨ before.applyVbparams parsers value = .ok after ∨
        before.applyTestActivationHeight parsers value = .ok after) : Obtainable after

end DeploymentSettings

open DeploymentSettings

variable {parsers : Parsers} {settings left right : DeploymentSettings}

theorem leBytes_append_inj {fields others : List (Nat × Nat)} {rest rest' : List Nat}
    (fit : ∀ field ∈ fields, field.2 < 256 ^ field.1) (fit' : ∀ field ∈ others, field.2 < 256 ^ field.1)
    (same : leBytes fields ++ rest = leBytes others ++ rest') (widths : fields.map Prod.fst = others.map Prod.fst) :
    fields = others ∧ rest = rest' := by
  induction fields generalizing others with
  | nil =>
    rw [map_nil, eq_comm, map_eq_nil_iff] at widths
    subst widths
    exact ⟨rfl, same⟩
  | cons field _ ih =>
    cases others with
    | nil => cases widths
    | cons other _ =>
      obtain ⟨sameWidth, widths⟩ := cons.inj widths
      rw [forall_mem_cons] at fit fit'
      rw [leBytes, leBytes, flatMap_cons, flatMap_cons, append_assoc, append_assoc] at same
      obtain ⟨bytes, same⟩ := append_inj same (by simp [sameWidth])
      have value := congrArg ofBigEndian (reverse_injective bytes)
      rw [ofBigEndian_bigEndian fit.1, ofBigEndian_bigEndian fit'.1] at value
      obtain ⟨rfl, rfl⟩ := ih fit.2 fit'.2 same widths
      exact ⟨congrArg (· :: _) (Prod.ext sameWidth value), rfl⟩

structure Regular (settings : DeploymentSettings) : Prop where
  heights : ∀ field ∈ settings.heightFields, field.2 < 256 ^ field.1
  overridden : settings.network ≠ .regtest → settings.buried = false
  custom : settings.customSignet = true → settings.network = .signet
  challenge : settings.customSignet = false → settings.signetChallenge = (forNetwork settings.network).signetChallenge

theorem DeploymentSettings.Obtainable.regular (obtained : Obtainable parsers settings) : Regular settings := by
  induction obtained with
  | default network => cases network <;> exact ⟨by decide, by decide, by decide, fun _ => rfl⟩
  | set _ accepted ih =>
    rcases accepted with accepted | accepted | accepted
    · simp only [setSignetChallenge, bind_eq_ok, ensure_eq_ok, pure_eq_ok] at accepted
      obtain ⟨_, onSignet, rfl⟩ := accepted
      exact ⟨ih.heights, ih.overridden, fun _ => onSignet, Bool.noConfusion⟩
    · simp only [applyVbparams, bind_eq_ok, pure_eq_ok] at accepted
      obtain ⟨_, _, _, _, _, _, _, _, _, _, _, _, rfl⟩ := accepted
      exact ⟨ih.heights, ih.overridden, ih.custom, ih.challenge⟩
    simp only [applyTestActivationHeight, bind_eq_ok, ensure_eq_ok] at accepted
    obtain ⟨_, onRegtest, accepted⟩ := accepted
    split at accepted
    · simp only [bind_eq_ok, require_eq_ok, Option.filter_eq_some_iff, pure_eq_ok] at accepted
      obtain ⟨height, ⟨-, small⟩, heights, accepted, rfl⟩ := accepted
      refine ⟨?_, (absurd onRegtest ·), ih.custom, ih.challenge⟩
      have fit := ih.heights
      simp only [heightFields, forall_mem_cons] at fit ⊢
      split at accepted <;> cases accepted <;> grind
    · cases accepted

theorem networkTag_injective : Function.Injective networkTag := by
  intro left right same
  cases left <;> cases right <;> first | rfl | cases same

theorem consensusId_eq {id : List Nat} (identified : settings.consensusId = some id) :
    ∃ challenge, settings.challengeBytes = some challenge ∧
      id = (settings.encodingVersion + 3) :: settings.encodedParts challenge ++ [networkTag settings.network] := by
  simp only [consensusId, legacyConsensusId, Option.map_map, Option.map_eq_some_iff] at identified
  obtain ⟨challenge, isChallenge, rfl⟩ := identified
  refine ⟨challenge, isChallenge, ?_⟩
  rw [encodingVersion]
  cases settings.customSignet <;> cases settings.buried <;> rfl

theorem fixedFields_fit : ∀ field ∈ settings.fixedFields, field.2 < 256 ^ field.1 := by
  simp only [fixedFields, forall_mem_cons, not_mem_nil, false_imp_iff, implies_true, and_true]
  omega

theorem Regular.not_buried (regular : Regular settings) (custom : settings.customSignet = true) :
    settings.buried = false :=
  regular.overridden (by rw [regular.custom custom]; decide)

theorem consensusId_separates {id : List Nat} (obtained : Obtainable parsers left)
    (obtained' : Obtainable parsers right)
    (identified : left.consensusId = some id) (identified' : right.consensusId = some id) :
    left.network = right.network ∧ halvingInterval left.network = halvingInterval right.network ∧
      left.activationHeights = right.activationHeights ∧ left.taproot = right.taproot ∧
      left.signetChallenge = right.signetChallenge := by
  have regular := obtained.regular
  have regular' := obtained'.regular
  obtain ⟨challenge, isChallenge, rfl⟩ := consensusId_eq identified
  obtain ⟨challenge', isChallenge', same⟩ := consensusId_eq identified'
  -- The tag ends the bytes, the version starts them and says which parts stand between.
  obtain ⟨same, tags⟩ := append_inj' same rfl
  have network := networkTag_injective (singleton_inj.mp tags)
  obtain ⟨version, same⟩ := cons.inj same
  obtain ⟨fixed, same⟩ := leBytes_append_inj fixedFields_fit fixedFields_fit same rfl
  have notBuried := regular.not_buried
  have notBuried' := regular'.not_buried
  have kinds : left.customSignet = right.customSignet ∧ left.buried = right.buried := by
    simp only [encodingVersion] at version
    grind
  refine ⟨network, congrArg _ network, ?_, ?_, ?_⟩
  · cases isBuried : left.buried with
    | true =>
      simp only [isBuried, ← kinds.2] at same
      have heights := (leBytes_append_inj regular.heights regular'.heights same rfl).1
      simp only [heightFields] at heights
      cases isLeft : left.activationHeights
      simp_all
    | false =>
      have isDefault := of_decide_eq_false isBuried
      have isDefault' := of_decide_eq_false (kinds.2 ▸ isBuried)
      rw [not_not.mp isDefault, not_not.mp isDefault', network]
  · simp only [fixedFields, cons.injEq, Prod.mk.injEq, true_and, BitVec.toNat_inj, and_true] at fixed
    exact VersionBitsParams.ext fixed.1 fixed.2.1 fixed.2.2.1 fixed.2.2.2.1 fixed.2.2.2.2
  · cases custom : left.customSignet with
    | true =>
      have custom' := kinds.1 ▸ custom
      simp only [notBuried custom, notBuried' custom'] at same
      simp only [challengeBytes, custom, custom', if_true, Option.bind_eq_bind, Option.bind_eq_some_iff,
        Option.ite_none_right_eq_some, Option.some.injEq] at isChallenge isChallenge'
      obtain ⟨_, isScript, short, rfl⟩ := isChallenge
      obtain ⟨_, isScript', short', rfl⟩ := isChallenge'
      rw [isScript, isScript', (leBytes_append_inj (by simpa using short) (by simpa using short') same rfl).2]
    | false => rw [regular.challenge custom, regular'.challenge (kinds.1 ▸ custom), network]

def customSignet (challenge : List Nat) : DeploymentSettings :=
  { forNetwork .signet with signetChallenge := some challenge, customSignet := true }

theorem consensusId_separates_custom_signets : ∃ id id', (customSignet [0x51]).consensusId = some id ∧
    (customSignet [0x52]).consensusId = some id' ∧ id ≠ id' := by
  have obtained challenge : Obtainable ⟨fun _ => none, fun _ => none, fun _ => none⟩ (customSignet challenge) :=
    @Obtainable.set _ _ _ challenge "" (.default .signet) (.inl rfl)
  refine ⟨_, _, rfl, rfl, fun same => ?_⟩
  have separates := consensusId_separates (obtained [0x51]) (obtained [0x52]) rfl (congrArg some same.symm)
  exact absurd separates.2.2.2.2 (by decide)

end Rbtc.Headers
