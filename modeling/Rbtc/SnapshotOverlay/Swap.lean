import Rbtc.Foundation.Interrupted

/-! The directory swap of a rebase or compaction (`snapshot_overlay.rs`): when interrupted it loses no
environment, which is where recovery looks for it. -/

namespace Rbtc.SnapshotOverlay

open Foundation Program

/-- The canonical directory, those a replacement is built in, and those the outgoing one is moved to. -/
inductive DirName where
  | canonical
  | rebasing
  | compacting
  | rebasedOut
  | compactedOut
  deriving DecidableEq, Repr

/-- Nothing, a directory without `mdbx.dat`, one with an incomplete `mdbx.dat`, or an environment. -/
inductive Entry (ε : Type) where
  | absent
  | remnant
  | unfinished
  | holding (environment : ε)
  deriving DecidableEq, Repr

def Entry.hasData {ε : Type} : Entry ε → Bool
  | .absent | .remnant => false
  | .unfinished | .holding _ => true

def Entry.isPresent {ε : Type} : Entry ε → Bool
  | .absent => false
  | .remnant | .unfinished | .holding _ => true

/-- A delete that fails may have removed `mdbx.dat` or the directory, but changes no environment. -/
def Entry.LeftOf {ε : Type} (before after : Entry ε) : Prop :=
  after = before ∨ after = .absent ∨ (before ≠ .absent ∧ after = .remnant)

inductive FileAction (ε : Type) where
  | hasData (name : DirName)
  | isPresent (name : DirName)
  | removeDirAll (name : DirName)
  | rename (source target : DirName)
  | build (name : DirName) (environment : ε)

/-- The directory tree, and the last environment that stood under the canonical name. -/
structure Directory (ε : Type) where
  entries : DirName → Entry ε
  last : ε

namespace Directory

variable {ε : Type}

def set (directory : Directory ε) (name : DirName) (entry : Entry ε) : Directory ε :=
  let entries := Function.update directory.entries name entry
  { entries
    last := match entries .canonical with
      | .holding environment => environment
      | _ => directory.last }

variable (directory : Directory ε) in
/-- A rename is atomic and needs nothing, or no files, in its place; a failed action may leave its
work undone. -/
inductive Effect : FileAction ε → Bool → Directory ε → Prop
  | hasData {name} : Effect (.hasData name) (directory.entries name).hasData directory
  | isPresent {name} : Effect (.isPresent name) (directory.entries name).isPresent directory
  | removed {name} : Effect (.removeDirAll name) true (directory.set name .absent)
  | removalStopped {name left} (leaves : (directory.entries name).LeftOf left) :
      Effect (.removeDirAll name) false (directory.set name left)
  | renamed {source target} (present : directory.entries source ≠ .absent)
      (free : directory.entries target = .absent ∨ directory.entries target = .remnant) :
      Effect (.rename source target) true ((directory.set target (directory.entries source)).set source .absent)
  | renameFailed {source target} : Effect (.rename source target) false directory
  | built {name environment} : Effect (.build name environment) true (directory.set name (.holding environment))
  | buildStopped {name environment left} (partly : left = .absent ∨ left = .remnant ∨ left = .unfinished) :
      Effect (.build name environment) false (directory.set name left)

end Directory

inductive SwapError where
  | io
  | twoSetAside
  deriving DecidableEq, Repr

section
variable {ε : Type}

abbrev FileProgram (ε : Type) := Program (FileAction ε) (Except SwapError Unit)

def orStop (action : FileAction ε) (next : FileProgram ε) : FileProgram ε := orFail action (.error .io) next

def removeIfPresent (name : DirName) (next : FileProgram ε) : FileProgram ε :=
  clearing (.isPresent name) (.removeDirAll name) (.error .io) next

def clearAsideCopies (next : FileProgram ε) : FileProgram ε :=
  removeIfPresent .rebasedOut (removeIfPresent .compactedOut next)

/-- Build the replacement beside the live directory, move that aside, and move the replacement in. -/
def swap (fresh aside : DirName) (environment : ε) : FileProgram ε :=
  clearAsideCopies <|
  removeIfPresent fresh <|
  orStop (.build fresh environment) <|
  orStop (.rename .canonical aside) <|
  .act (.rename fresh .canonical) fun installed =>
    if installed then .act (.removeDirAll aside) fun _ => .done (.ok ())
    else .act (.rename aside .canonical) fun _ => .done (.error .io)

def rebase (environment : ε) : FileProgram ε := swap .rebasing .rebasedOut environment

def compact (environment : ε) : FileProgram ε := swap .compacting .compactedOut environment

def removeAll : List DirName → FileProgram ε
  | [] => .done (.ok ())
  | name :: rest => orStop (.removeDirAll name) (removeAll rest)

def asideCopies (rebasedOut compactedOut : Bool) : List DirName :=
  (if rebasedOut then [.rebasedOut] else []) ++ (if compactedOut then [.compactedOut] else [])

def recoverFrom (installed : Bool) (present : List DirName) : FileProgram ε :=
  if installed then removeAll present
  else match present with
    | [] => .done (.ok ())
    | [aside] => orStop (.rename aside .canonical) (.done (.ok ()))
    | _ => .done (.error .twoSetAside)

def recoverInterruptedSwap : FileProgram ε :=
  .act (.hasData .canonical) fun installed =>
  .act (.hasData .rebasedOut) fun rebasedOut =>
  .act (.hasData .compactedOut) fun compactedOut =>
    recoverFrom installed (asideCopies rebasedOut compactedOut)

end

open Directory

variable {ε : Type}

namespace Directory

section
variable (folder : Directory ε)
include folder

theorem entries_set (name other : DirName) (entry : Entry ε) : (folder.set name entry).entries other =
      if other = name then entry else folder.entries other := by
  exact Function.update_apply ..

@[simp] theorem entries_set_self (name : DirName) (entry : Entry ε) : (folder.set name entry).entries name = entry := by
  rw [entries_set, if_pos rfl]

theorem last_set_canonical (environment : ε) : (folder.set .canonical (.holding environment)).last = environment := by
  simp [set]

theorem last_set_absent : (folder.set .canonical .absent).last = folder.last := by
  simp [set]

end

structure Installed (folder : Directory ε) (environment : ε) : Prop where
  canonical : folder.entries .canonical = .holding environment
  last : folder.last = environment

variable {folder : Directory ε} {environment : ε}

theorem Installed.set (installed : folder.Installed environment) {name : DirName} (apart : name ≠ .canonical)
    (entry : Entry ε) : (folder.set name entry).Installed environment := by
  have canonical : (folder.set name entry).entries .canonical = .holding environment := by
    rw [entries_set, if_neg apart.symm, installed.canonical]
  refine ⟨canonical, ?_⟩
  have holds : Function.update folder.entries name entry .canonical = .holding environment := canonical
  simp [Directory.set, holds]

theorem installed_set_canonical (folder : Directory ε) (environment : ε) :
    (folder.set .canonical (.holding environment)).Installed environment :=
  ⟨entries_set_self .., last_set_canonical ..⟩

/-- The last canonical environment is set aside, in one copy, and nothing stands in its place. -/
structure SetAside (folder : Directory ε) (aside other : DirName) : Prop where
  canonical : folder.entries .canonical = .absent
  aside : folder.entries aside = .holding folder.last
  other : folder.entries other = .absent

def Recoverable (folder : Directory ε) : Prop :=
  folder.Installed folder.last ∨ folder.SetAside .rebasedOut .compactedOut ∨ folder.SetAside .compactedOut .rebasedOut

theorem Installed.recoverable (installed : folder.Installed environment) : folder.Recoverable :=
  .inl ⟨installed.last ▸ installed.canonical, rfl⟩

theorem Recoverable.installed {folder : Directory ε} (recoverable : folder.Recoverable)
    (opened : (folder.entries .canonical).hasData = true) : folder.Installed folder.last := by
  obtain installed | setAside | setAside := recoverable
  · exact installed
  · simp [setAside.canonical, Entry.hasData] at opened
  · simp [setAside.canonical, Entry.hasData] at opened

end Directory

/-- The state between the two renames of a swap, under either of the two aside names. -/
inductive AsidePair : DirName → DirName → Prop
  | rebased : AsidePair .rebasedOut .compactedOut
  | compacted : AsidePair .compactedOut .rebasedOut

variable {folder : Directory ε}

theorem AsidePair.recoverable {aside other : DirName}
    (pair : AsidePair aside other) (setAside : folder.SetAside aside other) : folder.Recoverable := by
  cases pair with
  | rebased => exact .inr (.inl setAside)
  | compacted => exact .inr (.inr setAside)

section
variable {before environment : ε} {post : Except SwapError Unit → Directory ε → Prop}

/-- Every state of a swap is recoverable, to the environment it started from or the one it installs. -/
def Swapping (before environment : ε) (folder : Directory ε) : Prop :=
  folder.Recoverable ∧ (folder.last = before ∨ folder.last = environment)

variable {folder : Directory ε}

theorem Directory.Installed.swapping (installed : folder.Installed before) : Swapping before environment folder :=
  ⟨installed.recoverable, .inl installed.last⟩

/-- A run that may stop with an error anywhere has no more to guarantee than the invariant. -/
abbrev KeepsSwapping (before environment : ε) : Directory ε → FileProgram ε → Prop :=
  Keeps Effect (Swapping before environment) fun _ _ => True

theorem keeps_removeIfPresent {name : DirName} {next : FileProgram ε}
    (apart : name ≠ .canonical) (installed : folder.Installed before)
    (rest : ∀ cleared : Directory ε, cleared.Installed before → cleared.entries name = .absent →
      (∀ other, folder.entries other = .absent → cleared.entries other = .absent) →
      KeepsSwapping before environment cleared next) :
    KeepsSwapping before environment folder (removeIfPresent name next) := by
  refine ⟨installed.swapping, fun found middle queried => ?_⟩
  cases queried with
  | isPresent =>
    cases present : folder.entries name with
    | absent => exact rest folder installed present fun _ absent => absent
    | remnant | unfinished | holding _ =>
      refine ⟨installed.swapping, fun succeeded left removed => ?_⟩
      cases removed with
      | removed =>
        refine rest _ (installed.set apart _) (entries_set_self ..) fun other absent => ?_
        rw [entries_set]
        split
        · rfl
        · exact absent
      | removalStopped _ => exact ⟨(installed.set apart _).swapping, trivial⟩

variable {fresh aside other : DirName}

theorem keeps_renames (pair : AsidePair aside other) (freshApart : fresh ≠ .canonical) (asideApart : fresh ≠ aside)
    (installed : folder.Installed before) (built : folder.entries fresh = .holding environment)
    (otherFree : folder.entries other = .absent) :
    KeepsSwapping before environment folder (orStop (.rename .canonical aside)
      (.act (.rename fresh .canonical) fun moved => if moved then .act (.removeDirAll aside) fun _ => .done (.ok ())
        else .act (.rename aside .canonical) fun _ => .done (.error .io))) := by
  have apart : aside ≠ .canonical ∧ other ≠ .canonical ∧ other ≠ aside := by
    cases pair <;> decide
  refine ⟨installed.swapping, fun succeeded middle renamed => ?_⟩
  cases renamed with
  | renameFailed => exact ⟨installed.swapping, trivial⟩
  | renamed _ _ =>
    rw [installed.canonical]
    generalize isMoved : (folder.set aside (.holding before)).set .canonical .absent = moved
    have last : moved.last = before := by
      rw [← isMoved, last_set_absent, (installed.set apart.1 _).last]
    have setAside : moved.SetAside aside other :=
      { canonical := by rw [← isMoved, entries_set_self]
        aside := by rw [last, ← isMoved, entries_set, if_neg apart.1, entries_set_self]
        other := by
          rw [← isMoved, entries_set, if_neg apart.2.1, entries_set, if_neg apart.2.2, otherFree] }
    have swapping : Swapping before environment moved := ⟨pair.recoverable setAside, .inl last⟩
    have stillBuilt : moved.entries fresh = .holding environment := by
      rw [← isMoved, entries_set, if_neg freshApart, entries_set, if_neg asideApart, built]
    refine ⟨swapping, fun succeeded middle renamed => ?_⟩
    cases renamed with
    | renamed _ _ =>
      rw [stillBuilt]
      have replaced := (installed_set_canonical moved environment).set freshApart Entry.absent
      refine ⟨⟨replaced.recoverable, .inr replaced.last⟩, fun _ left removed => ?_⟩
      -- The best-effort delete leaves the new environment in place, however far it gets.
      have kept (entry : Entry ε) := replaced.set apart.1 entry
      cases removed with
      | removed => exact ⟨⟨(kept _).recoverable, .inr (kept _).last⟩, trivial⟩
      | removalStopped _ => exact ⟨⟨(kept _).recoverable, .inr (kept _).last⟩, trivial⟩
    | renameFailed =>
      refine ⟨swapping, fun _ left restored => ?_⟩
      cases restored with
      | renameFailed => exact ⟨swapping, trivial⟩
      | renamed _ _ =>
        rw [setAside.aside, last]
        have back := (installed_set_canonical moved before).set apart.1 Entry.absent
        exact ⟨back.swapping, trivial⟩

theorem keeps_swap (pair : AsidePair aside other) (freshApart : fresh ≠ .canonical)
    (freshName : fresh ≠ .rebasedOut ∧ fresh ≠ .compactedOut) (installed : folder.Installed before) :
    KeepsSwapping before environment folder (swap fresh aside environment) := by
  have asideApart : fresh ≠ aside ∧ other ≠ fresh := by
    cases pair
    · exact ⟨freshName.1, freshName.2.symm⟩
    · exact ⟨freshName.2, freshName.1.symm⟩
  refine keeps_removeIfPresent (by decide) installed fun first firstInstalled rebasedFree _ => ?_
  refine keeps_removeIfPresent (by decide) firstInstalled fun second secondInstalled compactedFree stays => ?_
  refine keeps_removeIfPresent freshApart secondInstalled fun third thirdInstalled _ staysFree => ?_
  have otherFree : third.entries other = .absent := by
    cases pair
    · exact staysFree _ compactedFree
    · exact staysFree _ (stays _ rebasedFree)
  refine ⟨thirdInstalled.swapping, fun succeeded middle writes => ?_⟩
  cases writes with
  | buildStopped _ => exact ⟨(thirdInstalled.set freshApart _).swapping, trivial⟩
  | built =>
    refine keeps_renames pair freshApart asideApart.1 (thirdInstalled.set freshApart _) (entries_set_self ..) ?_
    rw [entries_set, if_neg asideApart.2, otherFree]

theorem keeps_rebase (installed : folder.Installed before) :
    KeepsSwapping before environment folder (rebase environment) :=
  keeps_swap .rebased (by decide) (by decide) installed

theorem keeps_compact (installed : folder.Installed before) :
    KeepsSwapping before environment folder (compact environment) :=
  keeps_swap .compacted (by decide) (by decide) installed

end

structure Recovered (folder : Directory ε) (environment : ε) : Prop where
  installed : folder.Installed environment
  no_aside : (folder.entries .rebasedOut).hasData = false ∧ (folder.entries .compactedOut).hasData = false

/-- What recovery guarantees of its result: success means recovered, and it never finds two copies. -/
def RecoveryPost (environment : ε) (result : Except SwapError Unit) (folder : Directory ε) : Prop :=
  (result = .ok () → Recovered folder environment) ∧ result ≠ .error .twoSetAside

def Recovering (environment : ε) (folder : Directory ε) : Prop :=
  folder.Recoverable ∧ folder.last = environment

abbrev KeepsRecovering (environment : ε) : Directory ε → FileProgram ε → Prop :=
  Keeps Effect (Recovering environment) (RecoveryPost environment)

section
variable {environment : ε} {folder : Directory ε}

theorem recoveryPost_io : RecoveryPost environment (.error .io) folder :=
  ⟨fun ok => (by cases ok), nofun⟩

theorem Recovered.post (recovered : Recovered folder environment) :
    RecoveryPost environment (.ok ()) folder := ⟨fun _ => recovered, nofun⟩

theorem Directory.Installed.recovering (installed : folder.Installed environment) :
    Recovering environment folder := ⟨installed.recoverable, installed.last⟩

theorem keeps_removeAll {names : List DirName} (apart : .canonical ∉ names) (installed : folder.Installed environment)
    (others : ∀ name ∈ [DirName.rebasedOut, .compactedOut], name ∉ names →
      (folder.entries name).hasData = false) : KeepsRecovering environment folder (removeAll names) := by
  induction names generalizing folder with
  | nil =>
    have recovered : Recovered folder environment :=
      ⟨installed, others _ (by decide) (List.not_mem_nil), others _ (by decide) (List.not_mem_nil)⟩
    exact ⟨installed.recovering, recovered.post⟩
  | cons _ _ ih =>
    obtain ⟨nameApart, restApart⟩ := not_or.mp (mt List.mem_cons.mpr apart)
    refine ⟨installed.recovering, fun succeeded left removed => ?_⟩
    cases removed with
    | removalStopped _ =>
      exact ⟨(installed.set (Ne.symm nameApart) _).recovering, recoveryPost_io⟩
    | removed =>
      refine ih restApart (installed.set (Ne.symm nameApart) _) fun other isAside unlisted => ?_
      rw [entries_set]
      split
      · rfl
      · next differs => exact others other isAside (fun listed => (List.mem_cons.mp listed).elim differs unlisted)

theorem keeps_restore {aside other : DirName} (pair : AsidePair aside other) (setAside : folder.SetAside aside other) :
    KeepsRecovering folder.last folder (orStop (.rename aside .canonical) (.done (.ok ()))) := by
  have apart : aside ≠ .canonical ∧ other ≠ .canonical ∧ other ≠ aside := by
    cases pair <;> decide
  have recovering : Recovering folder.last folder := ⟨pair.recoverable setAside, rfl⟩
  refine ⟨recovering, fun succeeded middle renamed => ?_⟩
  cases renamed with
  | renameFailed => exact ⟨recovering, recoveryPost_io⟩
  | renamed _ _ =>
    rw [setAside.aside]
    have installed := (installed_set_canonical folder folder.last).set apart.1 Entry.absent
    refine ⟨installed.recovering, (Recovered.post ⟨installed, ?_⟩)⟩
    cases pair <;> simp [entries_set, setAside.other, Entry.hasData]

theorem mem_asideCopies {rebasedOut compactedOut : Bool} {name : DirName} : name ∈ asideCopies rebasedOut compactedOut ↔
      rebasedOut = true ∧ name = .rebasedOut ∨ compactedOut = true ∧ name = .compactedOut := by
  cases rebasedOut <;> cases compactedOut <;> simp [asideCopies]

def Directory.copies (folder : Directory ε) : List DirName :=
  asideCopies (folder.entries .rebasedOut).hasData (folder.entries .compactedOut).hasData

theorem keeps_queries {invariant : Directory ε → Prop}
    {post : Except SwapError Unit → Directory ε → Prop} (holds : invariant folder)
    (keeps : Keeps Effect invariant post folder (recoverFrom (folder.entries .canonical).hasData folder.copies)) :
    Keeps Effect invariant post folder recoverInterruptedSwap := by
  refine ⟨holds, fun installed first queried => ?_⟩
  cases queried with
  | hasData =>
    refine ⟨holds, fun rebasedOut second queried => ?_⟩
    cases queried with
    | hasData =>
      refine ⟨holds, fun compactedOut third queried => ?_⟩
      cases queried with
      | hasData => exact keeps

theorem keeps_recover (recoverable : folder.Recoverable) :
    KeepsRecovering folder.last folder recoverInterruptedSwap := by
  refine keeps_queries ⟨recoverable, rfl⟩ ?_
  obtain installed | setAside | setAside := recoverable
  · rw [installed.canonical]
    refine keeps_removeAll ?_ installed fun name isAside unlisted => ?_
    · rw [copies, mem_asideCopies]
      simp
    rw [copies, mem_asideCopies, not_or] at unlisted
    simp only [List.mem_cons, List.not_mem_nil, or_false] at isAside
    obtain rfl | rfl := isAside
    · simpa using unlisted.1
    · simpa using unlisted.2
  · rw [setAside.canonical, copies, setAside.aside, setAside.other]
    exact keeps_restore .rebased setAside
  · rw [setAside.canonical, copies, setAside.aside, setAside.other]
    exact keeps_restore .compacted setAside

theorem Recovered.recover_again (recovered : Recovered folder environment)
    {final : Directory ε} {outcome : Option (Except SwapError Unit)}
    (runs : Runs Effect folder recoverInterruptedSwap final outcome) :
    final = folder ∧ ∀ result ∈ outcome, result = .ok () := by
  have keeps : Keeps Effect (· = folder) (fun result _ => result = .ok ()) folder
      recoverInterruptedSwap := by
    refine keeps_queries rfl ?_
    rw [recovered.installed.canonical, copies, recovered.no_aside.1, recovered.no_aside.2]
    exact ⟨rfl, rfl⟩
  exact keeps.sound runs

theorem removeAll_completes (folder : Directory ε) (names : List DirName) :
    ∃ final, Runs Effect folder (removeAll names) final (some (.ok ())) := by
  induction names generalizing folder with
  | nil => exact ⟨folder, .done⟩
  | cons name _ ih =>
    obtain ⟨final, runs⟩ := ih (folder.set name .absent)
    exact ⟨final, .act .removed runs⟩

theorem recover_completes (recoverable : folder.Recoverable) :
    ∃ final, Runs Effect folder recoverInterruptedSwap final (some (.ok ())) := by
  have decides : ∃ final, Runs Effect folder (recoverFrom (folder.entries .canonical).hasData folder.copies) final
      (some (.ok ())) := by
    obtain installed | setAside | setAside := recoverable
    · rw [installed.canonical]
      exact removeAll_completes folder _
    · rw [setAside.canonical, copies, setAside.aside, setAside.other]
      exact ⟨_, .act (.renamed (by simp [setAside.aside]) (.inl setAside.canonical)) .done⟩
    · rw [setAside.canonical, copies, setAside.aside, setAside.other]
      exact ⟨_, .act (.renamed (by simp [setAside.aside]) (.inl setAside.canonical)) .done⟩
  obtain ⟨final, runs⟩ := decides
  exact ⟨final, .act .hasData (.act .hasData (.act .hasData runs))⟩

end

/-- The directories that commits, rebases, compactions and recoveries can leave, completed, failed
or cut short. -/
inductive History : Directory ε → Prop
  | start {folder : Directory ε} {environment : ε} (installed : folder.Installed environment) :
      History folder
  | commit {folder : Directory ε} (environment : ε) (before : History folder)
      (opened : (folder.entries .canonical).hasData = true) : History (folder.set .canonical (.holding environment))
  | rebase {folder after : Directory ε} (environment : ε) {outcome : Option (Except SwapError Unit)}
      (before : History folder) (opened : (folder.entries .canonical).hasData = true)
      (runs : Runs Effect folder (rebase environment) after outcome) : History after
  | compact {folder after : Directory ε} (environment : ε)
      {outcome : Option (Except SwapError Unit)} (before : History folder)
      (opened : (folder.entries .canonical).hasData = true)
      (runs : Runs Effect folder (compact environment) after outcome) : History after
  | recover {folder after : Directory ε} {outcome : Option (Except SwapError Unit)}
      (before : History folder)
      (runs : Runs Effect folder recoverInterruptedSwap after outcome) : History after

theorem History.recoverable (history : History folder) : folder.Recoverable := by
  induction history with
  | start installed => exact installed.recoverable
  | commit environment _ _ _ => exact (installed_set_canonical _ environment).recoverable
  | rebase _ _ opened runs ih =>
    exact ((keeps_rebase (ih.installed opened)).sound runs).1.1
  | compact _ _ opened runs ih =>
    exact ((keeps_compact (ih.installed opened)).sound runs).1.1
  | recover _ runs ih => exact ((keeps_recover ih).sound runs).1.1

/-- Whatever was cut short before, recovery puts the last canonical environment back, can be stopped
and repeated, and never finds two copies. -/
theorem interrupted_swap_recovers {folder : Directory ε} (history : History folder) :
    (∃ final, Runs Effect folder recoverInterruptedSwap final (some (.ok ()))) ∧
      (∀ final outcome, Runs Effect folder recoverInterruptedSwap final outcome →
        final.last = folder.last ∧ outcome ≠ some (.error .twoSetAside) ∧
        (outcome = some (.ok ()) → final.entries .canonical = .holding folder.last ∧
          ∀ again result, Runs Effect final recoverInterruptedSwap again result →
            again = final ∧ ∀ answer ∈ result, answer = .ok ())) ∧
      ∀ environment final outcome, (folder.entries .canonical).hasData = true →
        (Runs Effect folder (rebase environment) final outcome ∨
          Runs Effect folder (compact environment) final outcome) →
        final.last = folder.last ∨ final.last = environment := by
  have recoverable := history.recoverable
  refine ⟨recover_completes recoverable, fun final outcome runs => ?_, fun environment final outcome opened runs => ?_⟩
  · obtain ⟨⟨-, last⟩, meets⟩ := (keeps_recover recoverable).sound runs
    refine ⟨last, fun two => (meets _ two).2 rfl, fun succeeded => ?_⟩
    have recovered := (meets _ succeeded).1 rfl
    exact ⟨recovered.installed.canonical, fun again result => recovered.recover_again⟩
  · have installed := recoverable.installed opened
    obtain runs | runs := runs
    · exact ((keeps_rebase installed).sound runs).1.2
    · exact ((keeps_compact installed).sound runs).1.2

def sampleInstalled : Directory Nat :=
  ⟨fun name => if name = .canonical then .holding 1 else .absent, 1⟩

def sampleStopped : Directory Nat :=
  ((sampleInstalled.set .rebasing (.holding 2)).set .rebasedOut (.holding 1)).set .canonical .absent

theorem sampleStopped_history : History sampleStopped := by
  have opened : (sampleInstalled.entries .canonical).hasData = true := rfl
  have stopped : Runs Effect sampleInstalled (rebase 2) sampleStopped none := by
    refine .act .isPresent (.act .isPresent (.act .isPresent (.act .built ?_)))
    exact .act (.renamed nofun (.inl rfl)) .crashed
  exact .rebase 2 (.start ⟨rfl, rfl⟩) opened stopped

theorem interrupted_swap_recovers_sample :
    ∃ final, Runs Effect sampleStopped recoverInterruptedSwap final (some (.ok ())) ∧
      final.entries .canonical = .holding 1 := by
  obtain ⟨⟨final, runs⟩, recovers, -⟩ := interrupted_swap_recovers sampleStopped_history
  exact ⟨final, runs, ((recovers final _ runs).2.2 rfl).1⟩

end Rbtc.SnapshotOverlay
