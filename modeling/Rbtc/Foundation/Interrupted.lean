import Rbtc.Foundation.Outcome

/-! Computations that change a durable state one atomic step at a time, and programs that a crash may stop
anywhere, with recoveries stopped as well. -/

namespace Rbtc.Foundation

open List

/-- The states passed through, each after one more step, and what is returned or failed with. -/
def Stepwise (σ ε α : Type) := σ → List σ × Except ε α

namespace Stepwise

variable {σ ε α β : Type}

instance : Monad (Stepwise σ ε) where
  pure value := fun _ => ([], .ok value)
  bind program next := fun state =>
    match program state with
    | (passed, .ok value) =>
      let later := next value (passed.getLastD state)
      (passed ++ later.1, later.2)
    | (passed, .error fault) => (passed, .error fault)

def read : Stepwise σ ε σ := fun state => ([], .ok state)

def change (step : σ → σ) : Stepwise σ ε Unit := fun state => ([step state], .ok ())

def lift (result : Except ε α) : Stepwise σ ε α := fun _ => ([], result)

variable (program : Stepwise σ ε α)

def outcome (state : σ) : Except ε α := (program state).2

def left (state : σ) : σ := (program state).1.getLastD state

def Passes (state reached : σ) : Prop :=
  reached = state ∨ reached ∈ (program state).1

/-- The run returns a value and leaves a state, and every state it passes through has the property. -/
structure Completes (property : σ → Prop) (program : Stepwise σ ε α) (state : σ) (value : α) (final : σ) : Prop where
  returns : program.outcome state = .ok value
  leaves : program.left state = final
  passes : ∀ reached, program.Passes state reached → property reached

def Refuses (state : σ) (fault : ε) : Prop := program state = ([], .error fault)

variable {property : σ → Prop} {state middle final : σ} {value : α} {result : β} {fault : ε}
  {program : Stepwise σ ε α} {next : α → Stepwise σ ε β}

theorem Completes.here (completes : Completes property program state value final) : property state :=
  completes.passes state (.inl rfl)

theorem Completes.quiet (quiet : program state = ([], .ok value)) (holds : property state) :
    Completes property program state value state where
  returns := congrArg Prod.snd quiet
  leaves := by rw [left, quiet]; rfl
  passes reached passed := by
    rcases passed with rfl | absent
    · exact holds
    · rw [quiet] at absent
      cases absent

section
variable (holds : property state)
include holds

theorem Completes.pure : Completes property (Pure.pure value : Stepwise σ ε α) state value state := .quiet rfl holds

theorem Completes.read : Completes property (Stepwise.read : Stepwise σ ε σ) state state state := .quiet rfl holds

theorem Completes.lift : Completes property (Stepwise.lift (.ok value) : Stepwise σ ε α) state value state :=
  .quiet rfl holds

theorem Completes.change {step : σ → σ} (after : property (step state)) :
    Completes property (Stepwise.change step : Stepwise σ ε Unit) state () (step state) where
  returns := rfl
  leaves := rfl
  passes reached passed := by
    rcases passed with rfl | isStep
    · exact holds
    · rw [mem_singleton.mp isStep]
      exact after

end

theorem bind_of_returns (returns : program.outcome state = .ok value) : (program >>= next) state =
      ((program state).1 ++ (next value (program.left state)).1, (next value (program.left state)).2) := by
  simp only [outcome] at returns
  simp only [bind, left]
  split
  · next passed other run =>
    rw [run] at returns ⊢
    cases returns
    rfl
  · next passed fault run =>
    rw [run] at returns
    cases returns

theorem getLastD_append (before after : List σ) (default : σ) :
    (before ++ after).getLastD default = after.getLastD (before.getLastD default) := by
  cases after with
  | nil => simp
  | cons _ _ => simp [getLastD_eq_getLast?]

theorem Completes.bind (first : Completes property program state value middle)
    (rest : Completes property (next value) middle result final) :
    Completes property (program >>= next) state result final := by
  have run := @bind_of_returns _ _ _ _ _ _ _ next first.returns
  rw [first.leaves] at run
  constructor
  · rw [outcome, run]
    exact rest.returns
  · rw [left, run, getLastD_append]
    exact (congrArg _ first.leaves).trans rest.leaves
  rintro reached (rfl | passed)
  · exact first.here
  rw [run] at passed
  rcases mem_append.mp passed with early | late
  · exact first.passes reached (.inr early)
  · exact rest.passes reached (.inr late)

theorem Completes.mono {weaker : σ → Prop} (completes : Completes property program state value final)
    (implies : ∀ reached, property reached → weaker reached) : Completes weaker program state value final :=
  ⟨completes.returns, completes.leaves, fun reached passed => implies reached (completes.passes reached passed)⟩

theorem Refuses.bind (refuses : Refuses program state fault) : Refuses (program >>= next) state fault := by
  simp only [Refuses, Bind.bind] at refuses ⊢
  rw [refuses]

theorem Refuses.after (quiet : program state = ([], .ok value)) (refuses : Refuses (next value) state fault) :
    Refuses (program >>= next) state fault := by
  simp only [Refuses, Bind.bind] at refuses ⊢
  rw [quiet]
  exact refuses

theorem Refuses.lift : Refuses (Stepwise.lift (.error fault) : Stepwise σ ε α) state fault := rfl

theorem left_passes (program : Stepwise σ ε α) (state : σ) : program.Passes state (program.left state) := by
  rw [Passes, left]
  cases (program state).1 with
  | nil => exact .inl rfl
  | cons _ _ => exact .inr (by rw [getLastD_cons]; exact getLastD_mem_cons ..)

theorem Completes.there (completes : Completes property program state value final) : property final :=
  completes.leaves ▸ completes.passes _ (left_passes program state)

/-- A loop whose body takes a state with the property to the state a function gives. -/
theorem Completes.forM {items : List β} {body : β → Stepwise σ ε Unit} {step : σ → β → σ}
    (steps : ∀ item ∈ items, ∀ current, property current →
      Completes property (body item) current () (step current item))
    (holds : property state) : Completes property (items.forM body) state () (items.foldl step state) := by
  induction items generalizing state with
  | nil => exact .pure holds
  | cons item _ ih =>
    have first := steps item mem_cons_self state holds
    exact first.bind (ih (fun other member => steps other (mem_cons_of_mem _ member)) first.there)

end Stepwise

/-- A program performs an action, is told whether it succeeded, and goes on accordingly. -/
inductive Program (α β : Type) where
  | done (result : β)
  | act (action : α) (next : Bool → Program α β)

namespace Program

variable {α β σ : Type}

/-- An action that the program fails without. -/
def orFail (action : α) (failure : β) (next : Program α β) : Program α β :=
  .act action fun succeeded => if succeeded then next else .done failure

/-- Removes what a query finds. -/
def clearing (query remove : α) (failure : β) (next : Program α β) : Program α β :=
  .act query fun found => if found then orFail remove failure next else next

variable (effect : σ → α → Bool → σ → Prop)

/-- The runs of a program: the state left, and the result when no crash stopped it. -/
inductive Runs : σ → Program α β → σ → Option β → Prop
  | crashed {state program} : Runs state program state none
  | done {state result} : Runs state (.done result) state (some result)
  | act {state middle final action next succeeded outcome} (performed : effect state action succeeded middle)
      (rest : Runs middle (next succeeded) final outcome) : Runs state (.act action next) final outcome

/-- Every state passed through has the invariant, and every result meets the postcondition. -/
def Keeps (invariant : σ → Prop) (post : β → σ → Prop) : σ → Program α β → Prop
  | state, .done result => invariant state ∧ post result state
  | state, .act action next => invariant state ∧ ∀ succeeded middle,
      effect state action succeeded middle → Keeps invariant post middle (next succeeded)

variable {effect} {invariant : σ → Prop} {post : β → σ → Prop} {state : σ} {program next : Program α β} {action : α}
  {failure : β}

theorem Runs.orFail {middle final : σ} {outcome : Option β} (performed : effect state action true middle)
    (rest : Runs effect middle next final outcome) :
    Runs effect state (Program.orFail action failure next) final outcome :=
  .act performed rest

theorem Keeps.orFail (here : invariant state)
    (fails : ∀ after, effect state action false after → invariant after ∧ post failure after)
    (goes : ∀ after, effect state action true after → Keeps effect invariant post after next) :
    Keeps effect invariant post state (Program.orFail action failure next) := by
  refine ⟨here, fun succeeded after performed => ?_⟩
  cases succeeded with
  | false => exact fails after performed
  | true => exact goes after performed

variable (keeps : Keeps effect invariant post state program)
include keeps

theorem Keeps.here : invariant state := by
  cases program with
  | done _ => exact keeps.1
  | act _ _ => exact keeps.1

theorem Keeps.sound {final : σ} {outcome : Option β}
    (runs : Runs effect state program final outcome) : invariant final ∧ ∀ result ∈ outcome, post result final := by
  induction runs with
  | crashed => exact ⟨keeps.here, nofun⟩
  | done =>
    refine ⟨keeps.1, ?_⟩
    rintro result ⟨⟩
    exact keeps.2
  | act performed _ ih => exact ih (keeps.2 _ _ performed)

end Program

variable {ε ζ σ α : Type} (perform : σ → α → Except ε σ)

/-- A state that a crash may leave: the steps before it were performed, the others were not. -/
def CutsAt (start : σ) (steps : List α) (reached : σ) : Prop :=
  ∃ performed lost, steps = performed ++ lost ∧ foldOutcome perform start performed = .ok reached

/-- The states left by a protocol that was cut short, after any number of recoveries cut short themselves. -/
inductive Interrupted (plan : σ → Except ζ (List α)) (start : σ) (protocol : List α) : σ → Prop
  | protocol {reached} (cut : CutsAt perform start protocol reached) : Interrupted plan start protocol reached
  | recovery {state reached steps} (before : Interrupted plan start protocol state)
      (planned : plan state = .ok steps) (cut : CutsAt perform state steps reached) :
      Interrupted plan start protocol reached

/-- The steps complete, and every state they pass through has the property. -/
structure Leads (property : σ → Prop) (start : σ) (steps : List α) (final : σ) : Prop where
  completes : foldOutcome perform start steps = .ok final
  passes : ∀ reached, CutsAt perform start steps reached → property reached

variable {perform} {property : σ → Prop} {start reached state : σ} {step : α}

theorem cutsAt_cons {rest : List α} (cut : CutsAt perform start (step :: rest) reached) :
    reached = start ∨ ∃ next, perform start step = .ok next ∧ CutsAt perform next rest reached := by
  obtain ⟨performed, lost, split, run⟩ := cut
  cases performed with
  | nil => exact .inl (Except.ok.inj run).symm
  | cons _ others =>
    obtain ⟨rfl, remaining⟩ := List.cons.inj split
    rw [foldOutcome_cons, bind_eq_ok] at run
    obtain ⟨next, stepped, rest_run⟩ := run
    exact .inr ⟨next, stepped, others, lost, remaining, rest_run⟩

theorem Leads.nil (holds : property state) : Leads perform property state [] state where
  completes := rfl
  passes := by
    rintro reached ⟨_, _, split, run⟩
    obtain ⟨rfl, -⟩ := List.append_eq_nil_iff.mp split.symm
    exact Except.ok.inj run ▸ holds

theorem Leads.cons {next final : σ} {steps : List α} (holds : property state) (stepped : perform state step = .ok next)
    (rest : Leads perform property next steps final) : Leads perform property state (step :: steps) final where
  completes := by rw [foldOutcome_cons, stepped, ok_bind, rest.completes]
  passes reached cut := by
    obtain rfl | ⟨_, performed, later⟩ := cutsAt_cons cut
    · exact holds
    · obtain rfl := Except.ok.inj (stepped.symm.trans performed)
      exact rest.passes reached later

/-- A property that holds throughout the protocol, and throughout every recovery planned where it
holds, holds of every interrupted state. -/
theorem Interrupted.invariant {plan : σ → Except ζ (List α)} {protocol : List α}
    (throughout : ∀ state, CutsAt perform start protocol state → property state)
    (recovers : ∀ state steps next, property state → plan state = .ok steps →
      CutsAt perform state steps next → property next)
    (interrupted : Interrupted perform plan start protocol reached) : property reached := by
  induction interrupted with
  | protocol cut => exact throughout _ cut
  | recovery _ planned cut ih => exact recovers _ _ _ ih planned cut

end Rbtc.Foundation
