import Rbtc.Foundation.Interrupted
import Mathlib.Logic.Function.Basic

/-! The verified compaction of the MDBX chainstate (`mdbx_utxo.rs`): copy, check, mark, and swap in. It loses no
content: it stands in place, or is set aside whole for the next open. -/

namespace Rbtc.Chainstate.Compaction

open Foundation Program Function

/-- The canonical directory, the one the copy is made in, and the one the old environment moves to. -/
inductive Name where
  | canonical
  | compacting
  | compactedOut
  deriving DecidableEq, Repr

/-- None, one that was not written to its end, or one that names the identity of a content. -/
inductive ManifestFile (ι : Type) where
  | missing
  | torn
  | written (identity : ι)
  deriving DecidableEq, Repr

def ManifestFile.isPresent {ι : Type} : ManifestFile ι → Bool
  | .missing => false
  | .torn | .written _ => true

/-- What stands under a name: nothing, a directory without a whole environment, or an environment. -/
inductive Entry (γ ι : Type) where
  | absent
  | remnant (manifest : ManifestFile ι)
  | holding (content : γ) (manifest : ManifestFile ι)
  deriving DecidableEq, Repr

namespace Entry

variable {γ ι : Type}

def isPresent : Entry γ ι → Bool
  | .absent => false
  | .remnant _ | .holding _ _ => true

def hasManifest : Entry γ ι → Bool
  | .absent => false
  | .remnant manifest | .holding _ manifest => manifest.isPresent

/-- A recursive delete that fails takes whole files: what is still there has its content. -/
inductive LeftOf : Entry γ ι → Entry γ ι → Prop
  | untouched (entry : Entry γ ι) : LeftOf entry entry
  | absent (entry : Entry γ ι) : LeftOf entry .absent
  | remnant (entry : Entry γ ι) (manifest : ManifestFile ι) (present : entry ≠ .absent) :
      LeftOf entry (.remnant manifest)
  | unmarked (content : γ) (manifest : ManifestFile ι) :
      LeftOf (.holding content manifest) (.holding content .missing)

end Entry

/-- Format marker, audited identity, the content of a new environment, and what opening makes of one. -/
structure ContentFormat (γ ι : Type) where
  formatted : γ → Prop
  identity : γ → ι
  blank : γ
  prepare : γ → Option γ
  prepare_formatted : ∀ content, formatted content → prepare content = some content

abbrev Directory (γ ι : Type) := Name → Entry γ ι

inductive FileAction (ι : Type) where
  | isPresent (name : Name)
  | hasManifest (name : Name)
  | inspect
  | sync
  | removePath (name : Name)
  | rename (source target : Name)
  | copyCompact
  | openEnvironment (name : Name)
  | validateEnvironment (name : Name)
  | matchesAudit (name : Name) (before : ι)
  | writeManifest (name : Name) (identity : ι)
  | validateManifest (name : Name)
  | createTables (name : Name)
  | removeManifest (name : Name)

variable {γ ι : Type} (format : ContentFormat γ ι) (directory : Directory γ ι) in
/-- Queries answer truly, other actions may fail. A rename is atomic; a copy may hold any content. -/
inductive Effect : FileAction ι → Bool → Directory γ ι → Prop
  | isPresent {name} : Effect (.isPresent name) (directory name).isPresent directory
  | hasManifest {name} : Effect (.hasManifest name) (directory name).hasManifest directory
  | inspect {succeeded} : Effect .inspect succeeded directory
  | sync {succeeded} : Effect .sync succeeded directory
  | removed {name} : Effect (.removePath name) true (update directory name .absent)
  | removalStopped {name left} (leaves : (directory name).LeftOf left) :
      Effect (.removePath name) false (update directory name left)
  | renamed {source target} (present : directory source ≠ .absent)
      (free : directory target = .absent ∨ directory target = .remnant .missing) :
      Effect (.rename source target) true (update (update directory target (directory source)) source .absent)
  | renameFailed {source target} : Effect (.rename source target) false directory
  | copied (content : γ) : Effect .copyCompact true (update directory .compacting (.holding content .missing))
  | copyStopped (left : Entry γ ι) : Effect .copyCompact false (update directory .compacting left)
  | environmentOpened {name content manifest} (holds : directory name = .holding content manifest) :
      Effect (.openEnvironment name) true directory
  | environmentCreated {name manifest}
      (free : directory name = .absent ∧ manifest = .missing ∨ directory name = .remnant manifest) :
      Effect (.openEnvironment name) true (update directory name (.holding format.blank manifest))
  | openingFailed {name} : Effect (.openEnvironment name) false directory
  | creationFailed {name} (free : directory name = .absent) :
      Effect (.openEnvironment name) false (update directory name (.remnant .missing))
  | environmentValid {name content manifest}
      (holds : directory name = .holding content manifest) (formatted : format.formatted content) :
      Effect (.validateEnvironment name) true directory
  | environmentRefused {name} : Effect (.validateEnvironment name) false directory
  | auditMatches {name content manifest} (holds : directory name = .holding content manifest) :
      Effect (.matchesAudit name (format.identity content)) true directory
  | auditRefused {name before} : Effect (.matchesAudit name before) false directory
  | manifestWritten {name content identity}
      (holds : directory name = .holding content .missing) : Effect (.writeManifest name identity) true
        (update directory name (.holding content (.written identity)))
  | manifestStopped {name content identity before after} (holds : directory name = .holding content before) :
      Effect (.writeManifest name identity) false (update directory name (.holding content after))
  | manifestValid {name content} (holds : directory name = .holding content (.written (format.identity content))) :
      Effect (.validateManifest name) true directory
  | manifestRefused {name} : Effect (.validateManifest name) false directory
  | tablesCreated {name content next manifest}
      (holds : directory name = .holding content manifest) (prepared : format.prepare content = some next) :
      Effect (.createTables name) true (update directory name (.holding next manifest))
  | tablesRefused {name} : Effect (.createTables name) false directory
  | manifestRemoved {name content manifest synced} (holds : directory name = .holding content manifest) :
      Effect (.removeManifest name) synced (update directory name (.holding content .missing))
  | manifestStays {name} : Effect (.removeManifest name) false directory

section
variable {ι β : Type}

abbrev FileProgram (ι β : Type) := Program (FileAction ι) β

def removePathIfExists (name : Name) (failure : β) (next : FileProgram ι β) : FileProgram ι β :=
  clearing (.isPresent name) (.removePath name) failure next

inductive OpenResult where
  | opened
  | refused
  deriving DecidableEq, Repr

/-- The outcome of a compaction; a failed one may leave the store without its environment handle. -/
inductive CompactResult where
  | compacted
  | failed (usable : Bool)
  deriving DecidableEq, Repr

def CompactResult.usable : CompactResult → Bool
  | .compacted => true
  | .failed usable => usable

def recoverCompactionSwap (next : FileProgram ι OpenResult) : FileProgram ι OpenResult :=
  .act (.isPresent .canonical) fun standing => if standing then next else
  .act (.isPresent .compactedOut) fun aside => if aside then
    orFail (.rename .compactedOut .canonical) .refused <|
    removePathIfExists .compacting .refused <|
    orFail .sync .refused next
  else .act (.isPresent .compacting) fun copied => if copied then
    .act (.hasManifest .compacting) fun verified => if verified then
      orFail (.rename .compacting .canonical) .refused <|
      orFail .sync .refused next
    else .done .refused
  else next

def confirmManifest (next : FileProgram ι OpenResult) : FileProgram ι OpenResult :=
  .act (.hasManifest .canonical) fun marked => if marked then
    orFail (.validateEnvironment .canonical) .refused <|
    orFail (.validateManifest .canonical) .refused next
  else next

def removeStaleCompactionPaths (next : FileProgram ι OpenResult) : FileProgram ι OpenResult :=
  removePathIfExists .compacting .refused <|
  removePathIfExists .compactedOut .refused <|
  orFail .sync .refused next

def settleOpened : FileProgram ι OpenResult :=
  orFail (.createTables .canonical) .refused <|
  orFail (.removeManifest .canonical) .refused <|
  removeStaleCompactionPaths <|
  .done .opened

def openWithCapacity : FileProgram ι OpenResult :=
  recoverCompactionSwap <|
  orFail (.openEnvironment .canonical) .refused <|
  confirmManifest settleOpened

/-- A failed compaction opens the environment it has left in place. -/
def reopen : FileProgram ι CompactResult :=
  .act (.openEnvironment .canonical) fun opened => .done (.failed opened)

def putBack : FileProgram ι CompactResult :=
  orFail (.rename .compactedOut .canonical) (.failed false) <|
  orFail .sync (.failed false) reopen

def restoreCompactionOld : FileProgram ι CompactResult :=
  .act (.isPresent .canonical) fun promoted =>
    if promoted then orFail (.rename .canonical .compacting) (.failed false) putBack else putBack

def confirmPromotion (next : FileProgram ι CompactResult) : FileProgram ι CompactResult :=
  .act (.openEnvironment .canonical) fun opened => if opened then
    .act (.validateEnvironment .canonical) fun valid => if valid then
      .act (.validateManifest .canonical) fun same => if same then next else restoreCompactionOld
    else restoreCompactionOld
  else restoreCompactionOld

def dropSource : FileProgram ι CompactResult :=
  orFail (.removeManifest .canonical) (.failed true) <|
  removePathIfExists .compactedOut (.failed true) <|
  orFail .sync (.failed true) <|
  orFail .inspect (.failed true) <|
  .done .compacted

def promoteCopy : FileProgram ι CompactResult :=
  .act (.rename .canonical .compactedOut) fun moved => if moved then
    .act .sync fun synced => if synced then
      .act (.rename .compacting .canonical) fun promoted => if promoted then
        .act .sync fun synced => if synced then confirmPromotion dropSource else restoreCompactionOld
      else putBack
    else putBack
  else reopen

def verifyCopy (before : ι) : FileProgram ι CompactResult :=
  orFail (.openEnvironment .compacting) (.failed true) <|
  orFail (.validateEnvironment .compacting) (.failed true) <|
  orFail (.matchesAudit .compacting before) (.failed true) <|
  orFail .inspect (.failed true) <|
  orFail (.writeManifest .compacting before) (.failed true) <|
  orFail .sync (.failed true) promoteCopy

/-- The file-system steps of `compact_inner`; `before` is the identity its first audit has found. -/
def compactInner (before : ι) : FileProgram ι CompactResult :=
  orFail .inspect (.failed true) <|
  removePathIfExists .compacting (.failed true) <|
  removePathIfExists .compactedOut (.failed true) <|
  orFail .copyCompact (.failed true) <|
  verifyCopy before

end

/-- The directories that opens, commits and compactions can leave, with the last content committed
and whether a store is open. -/
inductive History {γ ι : Type} (format : ContentFormat γ ι) : Directory γ ι → γ → Bool → Prop
  | start {directory content manifest}
      (holds : directory .canonical = .holding content manifest) (formatted : format.formatted content) :
      History format directory content false
  | opening {directory after last outcome} (before : History format directory last false)
      (runs : Program.Runs (Effect format) directory openWithCapacity after outcome) :
      History format after last (outcome == some .opened)
  | committing {directory last content next manifest}
      (before : History format directory last true) (holds : directory .canonical = .holding content manifest)
      (formatted : format.formatted next) :
      History format (update directory .canonical (.holding next manifest)) next true
  | compacting {directory after last content manifest outcome} (before : History format directory last true)
      (holds : directory .canonical = .holding content manifest)
      (runs : Program.Runs (Effect format) directory (compactInner (format.identity content)) after outcome) :
      History format after last (outcome.any CompactResult.usable)
  | closing {directory last} (before : History format directory last true) : History format directory last false

open FileAction Effect

variable {γ ι β : Type} {format : ContentFormat γ ι} {folder after : Directory γ ι} {last : γ}

def Installed (last : γ) (folder : Directory γ ι) : Prop :=
  ∃ manifest, folder .canonical = .holding last manifest

structure SetAside (last : γ) (folder : Directory γ ι) : Prop where
  canonical : folder .canonical = .absent
  aside : ∃ manifest, folder .compactedOut = .holding last manifest

def Kept (last : γ) (folder : Directory γ ι) : Prop := Installed last folder ∨ SetAside last folder

variable {action : FileAction ι} {name : Name} {failure : β}

def FileAction.touches : FileAction ι → List Name
  | .isPresent _ | .hasManifest _ | .inspect | .sync | .validateEnvironment _ | .matchesAudit _ _
  | .validateManifest _ => []
  | .removePath name | .openEnvironment name | .writeManifest name _ | .createTables name
  | .removeManifest name => [name]
  | .rename source target => [source, target]
  | .copyCompact => [.compacting]

section
variable {succeeded : Bool}

theorem Effect.frame (effect : Effect format folder action succeeded after) (apart : name ∉ action.touches) :
    after name = folder name := by
  cases effect with
  | isPresent | hasManifest | inspect | sync | renameFailed | environmentOpened | openingFailed
  | environmentValid | environmentRefused | auditMatches | auditRefused | manifestValid | manifestRefused
  | tablesRefused | manifestStays => rfl
  | removed | removalStopped | copied | copyStopped | environmentCreated | creationFailed | manifestWritten
  | manifestStopped | tablesCreated | manifestRemoved =>
    exact update_of_ne (List.ne_of_not_mem_cons apart) ..
  | @renamed _ _ _ =>
    obtain ⟨notSource, notTarget⟩ := not_or.mp (mt List.mem_cons.mpr apart)
    rw [update_of_ne notSource, update_of_ne (List.ne_of_not_mem_cons notTarget)]

theorem Installed.frame (installed : Installed last folder)
    (effect : Effect format folder action succeeded after) (apart : .canonical ∉ action.touches) :
    Installed last after := by
  obtain ⟨manifest, holds⟩ := installed
  exact ⟨manifest, (effect.frame apart).trans holds⟩

theorem Effect.opened_eq {content : γ} {manifest : ManifestFile ι}
    (effect : Effect format folder (.openEnvironment name) succeeded after)
    (holds : folder name = .holding content manifest) : after = folder := by
  cases effect with
  | environmentOpened | openingFailed => rfl
  | environmentCreated free =>
    rw [holds] at free
    rcases free with ⟨absent, -⟩ | remnant
    · cases absent
    · cases remnant
  | creationFailed free =>
    rw [holds] at free
    cases free

end

section
variable {invariant : Directory γ ι → Prop} {post : β → Directory γ ι → Prop}
  {next : FileProgram ι β}

theorem keeps_beside (installed : Installed last folder) (failed : ∀ after, Installed last after → post failure after)
    (goes : ∀ after, Effect format folder action true after → Installed last after →
      Keeps (Effect format) (Kept last) post after next) (apart : .canonical ∉ action.touches := by simp [touches]) :
    Keeps (Effect format) (Kept last) post folder (orFail action failure next) := by
  refine Keeps.orFail (.inl installed) (fun after effect => ?_) fun after effect => ?_
  · have still := installed.frame effect apart
    exact ⟨.inl still, failed after still⟩
  · exact goes after effect (installed.frame effect apart)

theorem keeps_removePath {name : Name} (installed : Installed last folder) (apart : name ≠ .canonical)
    (failed : ∀ after, Installed last after → post failure after)
    (goes : ∀ after : Directory γ ι, Installed last after → after name = .absent →
      (∀ other, other ≠ name → after other = folder other) → Keeps (Effect format) (Kept last) post after next) :
    Keeps (Effect format) (Kept last) post folder (removePathIfExists name failure next) := by
  refine ⟨.inl installed, fun found after effect => ?_⟩
  cases effect with
  | isPresent =>
    cases present : folder name with
    | absent => exact goes folder installed present fun _ _ => rfl
    | remnant | holding =>
      have besides : Name.canonical ∉ (removePath name : FileAction ι).touches :=
        fun member => apart (List.mem_singleton.mp member).symm
      refine keeps_beside installed failed (fun after effect still => ?_) besides
      cases effect with
      | removed =>
        exact goes _ still (update_self ..) fun other differs => update_of_ne differs ..

end

def CompactPost (last : γ) (result : CompactResult) (folder : Directory γ ι) : Prop :=
  result.usable = true → Installed last folder

abbrev KeepsCompacting (format : ContentFormat γ ι) (last : γ) :
    Directory γ ι → FileProgram ι CompactResult → Prop :=
  Keeps (Effect format) (Kept last) (CompactPost last)

theorem compactPost_of_installed {result : CompactResult} (after : Directory γ ι)
    (installed : Installed last after) : CompactPost last result after := fun _ => installed

theorem compactPost_unusable : CompactPost last (.failed false) folder := nofun

theorem keeps_reopen (installed : Installed last folder) : KeepsCompacting format last folder reopen := by
  obtain ⟨manifest, holds⟩ := installed
  refine ⟨.inl ⟨manifest, holds⟩, fun opened after effect => ?_⟩
  rw [effect.opened_eq holds]
  exact ⟨.inl ⟨manifest, holds⟩, fun _ => ⟨manifest, holds⟩⟩

theorem SetAside.installed_of_renamed (aside : SetAside last folder)
    (effect : Effect format folder (.rename .compactedOut .canonical) true after) : Installed last after := by
  obtain ⟨manifest, holds⟩ := aside.aside
  cases effect with
  | renamed _ _ =>
    refine ⟨manifest, ?_⟩
    rw [update_of_ne (by decide), update_self, holds]

theorem keeps_putBack (aside : SetAside last folder) : KeepsCompacting format last folder putBack := by
  refine Keeps.orFail (.inr aside) (fun after effect => ?_) fun after effect => ?_
  · cases effect with
    | renameFailed => exact ⟨.inr aside, compactPost_unusable⟩
  · refine keeps_beside (aside.installed_of_renamed effect) compactPost_of_installed
      fun _ _ still => keeps_reopen still

structure Promoted (last : γ) (folder : Directory γ ι) : Prop where
  installed : Installed last folder
  aside : ∃ manifest, folder .compactedOut = .holding last manifest

theorem keeps_restore (promoted : Promoted last folder) : KeepsCompacting format last folder restoreCompactionOld := by
  obtain ⟨_, holds⟩ := promoted.installed
  refine ⟨.inl promoted.installed, fun found after effect => ?_⟩
  cases effect with
  | isPresent =>
    rw [holds]
    refine Keeps.orFail (.inl promoted.installed) (fun after effect => ?_) fun after effect => ?_
    · cases effect with
      | renameFailed => exact ⟨.inl promoted.installed, compactPost_unusable⟩
    cases effect with
    | renamed _ _ =>
      refine keeps_putBack ⟨update_self .., ?_⟩
      exact promoted.aside

theorem keeps_confirmPromotion (promoted : Promoted last folder) {next : FileProgram ι CompactResult}
    (goes : KeepsCompacting format last folder next) : KeepsCompacting format last folder (confirmPromotion next) := by
  obtain ⟨_, holds⟩ := promoted.installed
  have restores := @keeps_restore _ _ format _ _ promoted
  refine ⟨.inl promoted.installed, fun opened after effect => ?_⟩
  rw [effect.opened_eq holds]
  cases opened with
  | false => exact restores
  | true =>
    refine ⟨.inl promoted.installed, fun valid after effect => ?_⟩
    cases effect with
    | environmentRefused => exact restores
    | environmentValid _ _ =>
      refine ⟨.inl promoted.installed, fun same after effect => ?_⟩
      cases effect with
      | manifestRefused => exact restores
      | manifestValid _ => exact goes

section
variable (installed : Installed last folder)
include installed

theorem Installed.removeManifest {succeeded : Bool}
    (effect : Effect format folder (.removeManifest .canonical) succeeded after) : Installed last after := by
  obtain ⟨manifest, holds⟩ := installed
  cases effect with
  | manifestRemoved found =>
    rw [holds] at found
    cases found
    exact ⟨.missing, update_self ..⟩
  | manifestStays => exact ⟨manifest, holds⟩

theorem keeps_dropSource : KeepsCompacting format last folder dropSource := by
  refine Keeps.orFail (.inl installed) (fun after effect => ?_) fun after effect => ?_
  · have still := installed.removeManifest effect
    exact ⟨.inl still, fun _ => still⟩
  have unmarked := installed.removeManifest effect
  refine keeps_removePath unmarked (by decide) compactPost_of_installed fun _ still _ _ => ?_
  refine keeps_beside still compactPost_of_installed fun _ _ synced => ?_
  refine keeps_beside synced compactPost_of_installed fun _ _ checked => ?_
  exact ⟨.inl checked, fun _ => checked⟩

theorem keeps_promoteCopy (verified : ∃ manifest, folder .compacting = .holding last manifest) :
    KeepsCompacting format last folder promoteCopy := by
  obtain ⟨manifest, holds⟩ := installed
  obtain ⟨copyManifest, copyHolds⟩ := verified
  refine ⟨.inl ⟨manifest, holds⟩, fun moved after effect => ?_⟩
  cases effect with
  | renameFailed => exact keeps_reopen ⟨manifest, holds⟩
  | renamed _ _ =>
    rw [holds]
    generalize isMoved : update (update folder .compactedOut (.holding last manifest)) .canonical .absent = moved
    have aside : SetAside last moved := by
      refine ⟨by rw [← isMoved, update_self], manifest, ?_⟩
      rw [← isMoved, update_of_ne (by decide), update_self]
    have copyStays : moved .compacting = .holding last copyManifest := by
      rw [← isMoved, update_of_ne (by decide), update_of_ne (by decide), copyHolds]
    refine ⟨.inr aside, fun synced after effect => ?_⟩
    cases effect with
    | sync =>
      cases synced with
      | false => exact keeps_putBack aside
      | true =>
        refine ⟨.inr aside, fun succeeded after effect => ?_⟩
        cases effect with
        | renameFailed => exact keeps_putBack aside
        | renamed _ _ =>
          rw [copyStays]
          have promoted : Promoted last
              (update (update moved .canonical (.holding last copyManifest)) .compacting .absent) := by
            refine ⟨⟨copyManifest, ?_⟩, manifest, ?_⟩
            · rw [update_of_ne (by decide), update_self]
            · rw [update_of_ne (by decide), update_of_ne (by decide), ← isMoved,
                update_of_ne (by decide), update_self]
          refine ⟨.inl promoted.installed, fun synced after effect => ?_⟩
          cases effect with
          | sync =>
            cases synced with
            | false => exact keeps_restore promoted
            | true => exact keeps_confirmPromotion promoted (keeps_dropSource promoted.installed)

end

section
variable (collisionFree : Injective format.identity) (installed : Installed last folder)
include collisionFree installed

theorem keeps_verifyCopy {copy : γ} (copied : folder .compacting = .holding copy .missing) :
    KeepsCompacting format last folder (verifyCopy (format.identity last)) := by
  refine keeps_beside installed compactPost_of_installed fun _ opening _ => ?_
  rw [opening.opened_eq copied]
  refine keeps_beside installed compactPost_of_installed fun _ validating _ => ?_
  cases validating
  refine keeps_beside installed compactPost_of_installed fun audited auditing _ => ?_
  have same : copy = last ∧ audited = folder := by
    generalize isBefore : format.identity last = before at auditing
    cases auditing with
    | auditMatches holds =>
      rw [copied] at holds
      cases holds
      exact ⟨collisionFree isBefore.symm, rfl⟩
  rw [same.2]
  refine keeps_beside installed compactPost_of_installed fun _ inspecting _ => ?_
  cases inspecting
  refine keeps_beside installed compactPost_of_installed fun _ marking stillInstalled => ?_
  cases marking with
  | manifestWritten holds =>
    rw [copied] at holds
    cases holds
    refine keeps_beside stillInstalled compactPost_of_installed
      fun _ syncing finallyInstalled => ?_
    refine keeps_promoteCopy finallyInstalled ⟨.written (format.identity last), ?_⟩
    rw [syncing.frame (by simp [touches]), update_self, same.1]

theorem keeps_compactInner : KeepsCompacting format last folder (compactInner (format.identity last)) := by
  refine keeps_beside installed compactPost_of_installed fun _ _ audited => ?_
  refine keeps_removePath audited (by decide) compactPost_of_installed fun _ first _ _ => ?_
  refine keeps_removePath first (by decide) compactPost_of_installed fun _ second _ _ => ?_
  refine keeps_beside second compactPost_of_installed fun _ copying third => ?_
  cases copying with
  | copied _ => exact keeps_verifyCopy collisionFree third (update_self ..)

end

/-- The last content stands alone under the canonical name, without a manifest. -/
structure Settled (last : γ) (folder : Directory γ ι) : Prop where
  canonical : folder .canonical = .holding last .missing
  compacting : folder .compacting = .absent
  compactedOut : folder .compactedOut = .absent

def OpenPost (last : γ) (result : OpenResult) (folder : Directory γ ι) : Prop :=
  result = .opened → Settled last folder

abbrev KeepsOpening (format : ContentFormat γ ι) (last : γ) :
    Directory γ ι → FileProgram ι OpenResult → Prop :=
  Keeps (Effect format) (Kept last) (OpenPost last)

theorem openPost_refused : OpenPost last .refused folder := nofun

theorem refused_of_installed (after : Directory γ ι) (_ : Installed last after) : OpenPost last .refused after :=
  openPost_refused

section
variable (formatted : format.formatted last)
include formatted

theorem keeps_settling (installed : Installed last folder) : KeepsOpening format last folder settleOpened := by
  refine Keeps.orFail (.inl installed) (fun after effect => ?_) fun prepared effect => ?_
  · cases effect with
    | tablesRefused => exact ⟨.inl installed, openPost_refused⟩
  have stands : Installed last prepared := by
    obtain ⟨manifest, holds⟩ := installed
    cases effect with
    | tablesCreated found made =>
      rw [holds] at found
      cases found
      rw [format.prepare_formatted last formatted] at made
      cases made
      exact ⟨manifest, update_self ..⟩
  refine Keeps.orFail (.inl stands) (fun after effect => ?_) fun unmarked effect => ?_
  · exact ⟨.inl (stands.removeManifest effect), openPost_refused⟩
  have still := stands.removeManifest effect
  have canonical : unmarked .canonical = .holding last .missing := by
    obtain ⟨_, holds⟩ := stands
    cases effect with
    | manifestRemoved found =>
      rw [holds] at found
      cases found
      exact update_self ..
  refine keeps_removePath still (by decide) refused_of_installed fun first firstInstalled gone firstOthers => ?_
  refine keeps_removePath firstInstalled (by decide) refused_of_installed
    fun second secondInstalled asideGone secondOthers => ?_
  refine keeps_beside secondInstalled refused_of_installed
    fun final effect finalInstalled => ?_
  cases effect with
  | sync =>
    refine ⟨.inl finalInstalled, fun _ => ⟨?_, ?_, asideGone⟩⟩
    · rw [secondOthers _ (by decide), firstOthers _ (by decide), canonical]
    · rw [secondOthers _ (by decide), gone]

theorem keeps_openInstalled (installed : Installed last folder) : KeepsOpening format last folder
      (orFail (.openEnvironment .canonical) .refused <| confirmManifest settleOpened) := by
  obtain ⟨manifest, holds⟩ := installed
  have here : Kept last folder := .inl ⟨manifest, holds⟩
  have settles := keeps_settling formatted ⟨manifest, holds⟩
  refine Keeps.orFail here (fun after effect => ?_) fun after effect => ?_
  · rw [effect.opened_eq holds]
    exact ⟨here, openPost_refused⟩
  rw [effect.opened_eq holds]
  refine ⟨here, fun marked after effect => ?_⟩
  cases effect with
  | hasManifest =>
    cases (folder .canonical).hasManifest with
    | false => exact settles
    | true =>
      refine keeps_beside ⟨manifest, holds⟩ refused_of_installed fun _ validating _ => ?_
      cases validating
      refine keeps_beside ⟨manifest, holds⟩ refused_of_installed fun _ validating _ => ?_
      cases validating
      exact settles

theorem keeps_open (kept : Kept last folder) : KeepsOpening format last folder openWithCapacity := by
  refine ⟨kept, fun standing after effect => ?_⟩
  cases effect with
  | isPresent =>
    rcases kept with installed | aside
    · obtain ⟨manifest, holds⟩ := installed
      rw [holds]
      exact keeps_openInstalled formatted ⟨manifest, holds⟩
    rw [aside.canonical]
    refine ⟨.inr aside, fun found after effect => ?_⟩
    cases effect with
    | isPresent =>
      obtain ⟨_, holds⟩ := aside.aside
      rw [holds]
      refine Keeps.orFail (.inr aside) (fun after effect => ?_) fun after effect => ?_
      · cases effect with
        | renameFailed => exact ⟨.inr aside, openPost_refused⟩
      refine keeps_removePath (aside.installed_of_renamed effect) (by decide) refused_of_installed
        fun _ cleared _ _ => ?_
      refine keeps_beside cleared refused_of_installed
        fun _ _ synced => keeps_openInstalled formatted synced

end

abbrev Unchanged (format : ContentFormat γ ι) (folder : Directory γ ι) (allowed : OpenResult → Prop) :
    FileProgram ι OpenResult → Prop :=
  Keeps (Effect format) (· = folder) (fun result _ => allowed result) folder

section
variable {manifest : ManifestFile ι} {allowed : OpenResult → Prop} {next : FileProgram ι OpenResult}
  {final : Directory γ ι} {outcome : Option OpenResult}

theorem unchanged_orFail (refusing : allowed .refused)
    (stays : ∀ succeeded after, Effect format folder action succeeded after → after = folder)
    (goes : Unchanged format folder allowed next) : Unchanged format folder allowed (orFail action .refused next) := by
  refine Keeps.orFail rfl (fun after effect => ⟨stays _ _ effect, refusing⟩) fun after effect => ?_
  rw [stays _ _ effect]
  exact goes

theorem unchanged_removePath (gone : folder name = .absent) (goes : Unchanged format folder allowed next) :
    Unchanged format folder allowed (removePathIfExists name .refused next) := by
  refine ⟨rfl, fun found after effect => ?_⟩
  cases effect with
  | isPresent =>
    rw [gone]
    exact goes

theorem unchanged_recover (installed : Installed last folder) (goes : Unchanged format folder allowed next) :
    Unchanged format folder allowed (recoverCompactionSwap next) := by
  obtain ⟨_, holds⟩ := installed
  refine ⟨rfl, fun found after effect => ?_⟩
  cases effect with
  | isPresent =>
    rw [holds]
    exact goes

theorem Settled.open_again (settled : Settled last folder) (formatted : format.formatted last)
    (runs : Runs (Effect format) folder openWithCapacity final outcome) : final = folder := by
  have rewritten : update folder .canonical (.holding last .missing) = folder := by
    rw [← settled.canonical]
    exact update_eq_self ..
  have keeps : Unchanged format folder (fun _ => True) openWithCapacity := by
    refine unchanged_recover ⟨_, settled.canonical⟩ ?_
    refine unchanged_orFail trivial (fun _ _ effect => effect.opened_eq settled.canonical) ?_
    refine ⟨rfl, fun marked after effect => ?_⟩
    cases effect with
    | hasManifest =>
      rw [settled.canonical]
      refine unchanged_orFail trivial (fun _ _ effect => ?_) ?_
      · cases effect with
        | tablesRefused => rfl
        | tablesCreated found made =>
          rw [settled.canonical] at found
          cases found
          rw [format.prepare_formatted last formatted] at made
          cases made
          exact rewritten
      · refine unchanged_orFail trivial (fun _ _ effect => ?_) ?_
        · cases effect with
          | manifestStays => rfl
          | manifestRemoved found =>
            rw [settled.canonical] at found
            cases found
            exact rewritten
        · refine unchanged_removePath settled.compacting (unchanged_removePath settled.compactedOut ?_)
          refine unchanged_orFail trivial (fun _ _ effect => ?_) ⟨rfl, trivial⟩
          cases effect
          rfl
  exact (keeps.sound runs).1

/-- The canonical environment carries a manifest that is not its own. -/
def Disowned (format : ContentFormat γ ι) (last : γ) (manifest : ManifestFile ι) : Prop :=
  manifest.isPresent = true ∧ manifest ≠ .written (format.identity last)

theorem refused_of_disowned (holds : folder .canonical = .holding last manifest)
    (disowned : Disowned format last manifest)
    (runs : Runs (Effect format) folder openWithCapacity final outcome) : final = folder ∧ outcome ≠ some .opened := by
  have keeps : Unchanged format folder (· = .refused) openWithCapacity := by
    refine unchanged_recover ⟨manifest, holds⟩ ?_
    refine unchanged_orFail rfl (fun _ _ effect => effect.opened_eq holds) ?_
    refine ⟨rfl, fun marked after effect => ?_⟩
    cases effect with
    | hasManifest =>
      have present : (folder .canonical).hasManifest = true := by
        rw [holds]
        exact disowned.1
      rw [present]
      refine unchanged_orFail rfl (fun _ _ effect => by cases effect <;> rfl) ?_
      refine Keeps.orFail rfl (fun after effect => ?_) fun after effect => ?_
      · cases effect with
        | manifestRefused => exact ⟨rfl, rfl⟩
      cases effect with
      | manifestValid found =>
        rw [holds] at found
        cases found
        exact absurd rfl disowned.2
  obtain ⟨same, refuses⟩ := keeps.sound runs
  refine ⟨same, fun opened => ?_⟩
  cases refuses _ opened

theorem removePath_completes {result : β} {next : FileProgram ι β}
    (goes : ∀ after : Directory γ ι, (∀ other, other ≠ name → after other = folder other) →
      ∃ final, Runs (Effect format) after next final (some result)) :
    ∃ final, Runs (Effect format) folder (removePathIfExists name failure next) final (some result) := by
  cases present : folder name with
  | absent =>
    obtain ⟨final, runs⟩ := goes folder fun _ _ => rfl
    refine ⟨final, .act .isPresent ?_⟩
    rw [present]
    exact runs
  | remnant | holding =>
    obtain ⟨final, runs⟩ := goes (update folder name .absent) fun other differs => update_of_ne differs ..
    refine ⟨final, .act .isPresent ?_⟩
    rw [present]
    exact .act .removed runs

theorem settleOpened_completes (formatted : format.formatted last)
    (holds : folder .canonical = .holding last manifest) :
    ∃ final, Runs (Effect format) folder settleOpened final (some .opened) := by
  have cleared (folder : Directory γ ι) : ∃ final, Runs (Effect format) folder
      (removeStaleCompactionPaths <| .done .opened) final (some .opened) :=
    removePath_completes fun _ _ => removePath_completes fun after _ => ⟨after, Runs.orFail .sync .done⟩
  have created := tablesCreated holds (format.prepare_formatted last formatted)
  have unmarked := @manifestRemoved _ _ format _ _ _ _ true (update_self .canonical (.holding last manifest) folder)
  obtain ⟨final, runs⟩ := cleared _
  exact ⟨final, Runs.orFail created (Runs.orFail unmarked runs)⟩

/-- An open of an installed environment whose actions go through succeeds, unless the environment carries
a manifest of another. -/
theorem openInstalled_completes (formatted : format.formatted last)
    (holds : folder .canonical = .holding last manifest) (owned : ¬ Disowned format last manifest) :
    ∃ final, Runs (Effect format) folder
      (orFail (.openEnvironment .canonical) .refused <| confirmManifest settleOpened) final (some .opened) := by
  obtain ⟨final, runs⟩ := settleOpened_completes formatted holds
  refine ⟨final, .act (.environmentOpened holds) (.act .hasManifest ?_)⟩
  rw [holds]
  cases manifest with
  | missing => exact runs
  | torn => exact absurd ⟨rfl, nofun⟩ owned
  | written identity =>
    have own : identity = format.identity last := by
      by_contra differs
      exact owned ⟨rfl, fun same => differs (ManifestFile.written.inj same)⟩
    rw [own] at holds
    exact .act (.environmentValid holds formatted) (.act (.manifestValid holds) runs)

theorem open_completes (formatted : format.formatted last) (owned : ¬ Disowned format last manifest)
    (kept : folder .canonical = .holding last manifest ∨
      folder .canonical = .absent ∧ folder .compactedOut = .holding last manifest) :
    ∃ final, Runs (Effect format) folder openWithCapacity final (some .opened) := by
  rcases kept with holds | ⟨free, aside⟩
  · obtain ⟨final, runs⟩ := openInstalled_completes formatted holds owned
    refine ⟨final, .act .isPresent ?_⟩
    rw [holds]
    exact runs
  have restored : update (update folder .canonical (folder .compactedOut)) .compactedOut .absent .canonical =
      .holding last manifest := by
    rw [update_of_ne (by decide), update_self, aside]
  have recovered : ∃ final, Runs (Effect format)
      (update (update folder .canonical (folder .compactedOut)) .compactedOut .absent)
      (removePathIfExists .compacting .refused <| orFail .sync .refused <|
        orFail (.openEnvironment .canonical) .refused <| confirmManifest settleOpened) final (some .opened) :=
    removePath_completes fun after others => by
      obtain ⟨final, runs⟩ := openInstalled_completes formatted ((others _ (by decide)).trans restored) owned
      exact ⟨final, Runs.orFail .sync runs⟩
  obtain ⟨final, runs⟩ := recovered
  have moved : Effect format folder (.rename .compactedOut .canonical) true _ :=
    .renamed (by rw [aside]; exact nofun) (.inl free)
  refine ⟨final, .act .isPresent ?_⟩
  rw [free]
  refine .act .isPresent ?_
  rw [aside] at runs moved ⊢
  exact .act moved runs

end

theorem History.kept (collisionFree : Injective format.identity) {running : Bool}
    (history : History format folder last running) :
    format.formatted last ∧ Kept last folder ∧ (running = true → Installed last folder) := by
  induction history with
  | start holds formatted => exact ⟨formatted, .inl ⟨_, holds⟩, nofun⟩
  | @opening folder _ last outcome _ runs ih =>
    obtain ⟨formatted, kept, -⟩ := ih
    obtain ⟨stillKept, opens⟩ := (keeps_open formatted kept).sound runs
    refine ⟨formatted, stillKept, fun running => ?_⟩
    have settled := opens .opened (eq_of_beq running) rfl
    exact ⟨_, settled.canonical⟩
  | @committing folder _ _ next manifest _ _ formatted _ =>
    have installed := update_self .canonical (.holding next manifest) folder
    exact ⟨formatted, .inl ⟨_, installed⟩, fun _ => ⟨_, installed⟩⟩
  | @compacting _ _ last content _ outcome _ holds runs ih =>
    obtain ⟨formatted, -, standing⟩ := ih
    obtain ⟨_, installed⟩ := standing rfl
    have same : content = last := by
      rw [holds] at installed
      cases installed
      rfl
    rw [same] at runs
    obtain ⟨stillKept, meets⟩ := (keeps_compactInner collisionFree ⟨_, installed⟩).sound runs
    refine ⟨formatted, stillKept, fun running => ?_⟩
    cases finished : outcome with
    | none =>
      rw [finished] at running
      cases running
    | some result =>
      rw [finished] at running
      exact meets result finished running
  | closing _ ih => exact ⟨ih.1, ih.2.1, nofun⟩

/-- Whatever was cut short before, the last content stands under the canonical name or is set aside
whole, and an open whose actions go through finds it unless a foreign manifest stands there. -/
theorem compaction_keeps_chainstate (collisionFree : Injective format.identity) {running : Bool}
    (history : History format folder last running) :
    Kept last folder ∧ (running = true → Installed last folder) ∧ (∀ final outcome, running = true →
        Runs (Effect format) folder (compactInner (format.identity last)) final outcome → Kept last final) ∧
      (∀ final outcome, Runs (Effect format) folder openWithCapacity final outcome →
        Kept last final ∧ (outcome = some .opened → Settled last final ∧
          ∀ again result, Runs (Effect format) final openWithCapacity again result → again = final)) ∧
      ((∃ final, Runs (Effect format) folder openWithCapacity final (some .opened)) ∨
        ∃ manifest, Disowned format last manifest ∧ (folder .canonical = .holding last manifest ∨
            folder .canonical = .absent ∧ folder .compactedOut = .holding last manifest)) ∧
      ∀ manifest, Disowned format last manifest → folder .canonical = .holding last manifest →
        ∀ final outcome, Runs (Effect format) folder openWithCapacity final outcome →
          final = folder ∧ outcome ≠ some .opened := by
  obtain ⟨formatted, kept, standing⟩ := history.kept collisionFree
  refine ⟨kept, standing, fun final outcome isRunning runs => ?_, fun final outcome runs => ?_, ?_,
    fun manifest disowned holds final outcome runs => refused_of_disowned holds disowned runs⟩
  · exact ((keeps_compactInner collisionFree (standing isRunning)).sound runs).1
  · obtain ⟨stillKept, opens⟩ := (keeps_open formatted kept).sound runs
    refine ⟨stillKept, fun opened => ?_⟩
    have settled := opens .opened opened rfl
    exact ⟨settled, fun again result => settled.open_again formatted⟩
  have stands : ∃ manifest, folder .canonical = .holding last manifest ∨
      folder .canonical = .absent ∧ folder .compactedOut = .holding last manifest := by
    rcases kept with ⟨manifest, holds⟩ | ⟨free, manifest, holds⟩
    · exact ⟨manifest, .inl holds⟩
    · exact ⟨manifest, .inr ⟨free, holds⟩⟩
  obtain ⟨manifest, holds⟩ := stands
  by_cases disowned : Disowned format last manifest
  · exact .inr ⟨manifest, disowned, holds⟩
  · exact .inl (open_completes formatted disowned holds)

def sampleFormat : ContentFormat Nat Nat :=
  { formatted := fun _ => True, identity := id, blank := 0, prepare := some, prepare_formatted := fun _ _ => rfl }

def sampleStore : Directory Nat Nat
  | .canonical => .holding 7 .missing
  | .compacting | .compactedOut => .absent

def sampleStopped : Directory Nat Nat
  | .canonical => .absent
  | .compacting => .holding 7 (.written 7)
  | .compactedOut => .holding 7 .missing

theorem sampleStopped_history : History sampleFormat sampleStopped 7 false := by
  have started : History sampleFormat sampleStore 7 false := .start rfl trivial
  have rewritten : update sampleStore .canonical (.holding 7 .missing) = sampleStore := update_eq_self ..
  have opened : Runs (Effect sampleFormat) sampleStore openWithCapacity sampleStore (some .opened) := by
    have created : Effect sampleFormat sampleStore (.createTables .canonical) true sampleStore := by
      have effect := @tablesCreated _ _ sampleFormat sampleStore .canonical 7 7 .missing rfl rfl
      rwa [rewritten] at effect
    have unmarked : Effect sampleFormat sampleStore (.removeManifest .canonical) true sampleStore := by
      have effect := @manifestRemoved _ _ sampleFormat sampleStore .canonical 7 .missing true rfl
      rwa [rewritten] at effect
    refine .act .isPresent (Runs.orFail (.environmentOpened rfl) (.act .hasManifest ?_))
    refine Runs.orFail created (Runs.orFail unmarked ?_)
    exact .act .isPresent (.act .isPresent (Runs.orFail .sync .done))
  have stopped : Runs (Effect sampleFormat) sampleStore (compactInner (sampleFormat.identity 7))
      sampleStopped none := by
    have audited := @auditMatches _ _ sampleFormat (update sampleStore .compacting (.holding 7 .missing))
      .compacting 7 .missing rfl
    have final : update (update (update (update sampleStore .compacting (.holding 7 .missing)) .compacting
        (.holding 7 (.written 7))) .compactedOut (.holding 7 .missing)) .canonical .absent =
          sampleStopped := by
      funext name
      cases name <;> rfl
    rw [← final]
    refine Runs.orFail .inspect (.act .isPresent (.act .isPresent (Runs.orFail (.copied 7) ?_)))
    refine Runs.orFail (.environmentOpened rfl) (Runs.orFail (.environmentValid rfl trivial) ?_)
    refine Runs.orFail audited (Runs.orFail .inspect (Runs.orFail (.manifestWritten rfl) (Runs.orFail .sync ?_)))
    exact .act (.renamed nofun (.inl rfl)) .crashed
  exact .compacting (.opening started opened) rfl stopped

/-- The next open puts the source back. -/
theorem compaction_keeps_chainstate_sample :
    ∃ final, Runs (Effect sampleFormat) sampleStopped openWithCapacity final (some .opened) ∧ Settled 7 final := by
  obtain ⟨-, -, -, opens, completes, -⟩ :=
    compaction_keeps_chainstate (fun _ _ same => same) sampleStopped_history
  rcases completes with ⟨final, runs⟩ | ⟨_, disowned, holds | ⟨_, holds⟩⟩
  · exact ⟨final, runs, ((opens final _ runs).2 rfl).1⟩
  · cases holds
  · cases holds
    cases disowned.1

end Rbtc.Chainstate.Compaction
