import Mathlib.Data.List.Induction
import Mathlib.Data.List.Nodup

/-! Fallible computations: inversion of a successful bind, guards, rules of a fallible fold, two
computations run side by side, and programs that read a keyed store. -/

namespace Rbtc.Foundation

open List

/-- The two ways an operation ends without a value: it returns an error, or it panics. -/
inductive Fault (ε : Type) where
  | refused (error : ε)
  | panicked
  deriving DecidableEq, Repr

abbrev Outcome (ε α : Type) := Except (Fault ε) α

def refuse {ε α : Type} (error : ε) : Outcome ε α := .error (.refused error)

def ensure {ε : Type} (condition : Prop) [Decidable condition] (error : ε) : Except ε Unit :=
  if condition then .ok () else .error error

def require {ε α : Type} (value : Option α) (error : ε) : Except ε α :=
  match value with
  | some found => .ok found
  | none => .error error

section
variable {ε α β σ : Type}

section
variable {condition : Prop} {error : ε} {check : α → Except ε β} {value result : α} {items : List α}

@[simp] theorem bind_eq_ok {source : Except ε α} {next : α → Except ε β} {result : β} :
    (source >>= next) = .ok result ↔ ∃ value, source = .ok value ∧ next value = .ok result := by
  cases source with
  | error _ => simp [bind, Except.bind]
  | ok _ => simp [bind, Except.bind]

@[simp] theorem pure_eq_ok : (pure value : Except ε α) = .ok result ↔ value = result := by
  simp [pure, Except.pure]

@[simp] theorem ok_bind (value : α) (next : α → Except ε β) :
    ((Except.ok value : Except ε α) >>= next) = next value := rfl

@[simp] theorem error_bind (fault : ε) (next : α → Except ε β) :
    ((Except.error fault : Except ε α) >>= next) = .error fault := rfl

@[simp] theorem ensure_eq_ok [Decidable condition] {done : Unit} : ensure condition error = .ok done ↔ condition := by
  unfold ensure
  split <;> simp_all

theorem ensure_of [Decidable condition] (holds : condition) : ensure condition error = .ok () := if_pos holds

theorem ensure_of_not [Decidable condition] (fails : ¬ condition) :
    ensure condition error = .error error := if_neg fails

theorem ite_error_eq_ok [Decidable condition] {otherwise : Except ε α} :
    (if condition then .error error else otherwise) = .ok value ↔ ¬ condition ∧ otherwise = .ok value := by
  split <;> simp_all

@[simp] theorem require_eq_ok {value : Option α} {found : α} :
    require value error = .ok found ↔ value = some found := by
  cases value <;> simp [require]

@[simp] theorem mapError_eq_ok {ζ : Type} {embed : ε → ζ} {result : Except ε α} :
    result.mapError embed = .ok value ↔ result = .ok value := by
  cases result <;> simp [Except.mapError]

theorem mapM_eq_ok : (∃ results, items.mapM check = .ok results) ↔
      ∀ item ∈ items, ∃ result, check item = .ok result := by
  induction items with
  | nil => simp
  | cons _ _ _ =>
    simp only [mapM_cons, bind_eq_ok, forall_mem_cons]
    tauto

theorem getElem?_of_mapM {results : List β} (mapped : items.mapM check = .ok results) :
    results.length = items.length ∧ ∀ (index : Nat) (item : α) (result : β), items[index]? = some item →
      results[index]? = some result → check item = .ok result := by
  induction items generalizing results with
  | nil =>
    cases mapped
    exact ⟨rfl, nofun⟩
  | cons _ _ ih =>
    simp only [mapM_cons, bind_eq_ok, pure_eq_ok] at mapped
    obtain ⟨_, isFirst, _, others, rfl⟩ := mapped
    obtain ⟨length, positions⟩ := ih others
    refine ⟨congrArg (· + 1) length, fun index item result isItem isResult => ?_⟩
    cases index with
    | zero =>
      cases isItem
      cases isResult
      exact isFirst
    | succ index => exact positions index item result isItem isResult

/-- A check of transformed items, when the outcome depends on what they came from. -/
theorem mapM_map_of_ok {γ : Type} {transform : γ → α} {result : γ → β} {items : List γ}
    (succeeds : ∀ item ∈ items, check (transform item) = .ok (result item)) :
    (items.map transform).mapM check = .ok (items.map result) := by
  induction items with
  | nil => rfl
  | cons _ _ ih =>
    rw [forall_mem_cons] at succeeds
    rw [map_cons, mapM_cons, succeeds.1, ih succeeds.2]
    rfl

theorem exists_eq_ok_iff {run other : Except ε α}
    (same : ∀ value, run = .ok value ↔ other = .ok value ∧ condition) (accepted : other = .ok result) :
    (∃ value, run = .ok value) ↔ condition := by
  constructor
  · rintro ⟨value, succeeds⟩
    exact ((same value).mp succeeds).2
  · intro holds
    exact ⟨result, (same result).mpr ⟨accepted, holds⟩⟩

end

/-- The operation returns a value or an error; it does not panic. -/
def Safe {ε α : Type} (outcome : Outcome ε α) : Prop := outcome ≠ .error .panicked

theorem safe_ok (value : α) : Safe (.ok value : Outcome ε α) := nofun

theorem safe_pure (value : α) : Safe (pure value : Outcome ε α) := safe_ok value

theorem safe_ensure {condition : Prop} [Decidable condition] {error : ε} :
    Safe (ensure condition (.refused error)) := by
  unfold ensure Safe
  split <;> simp

theorem safe_require {value : Option α} {error : ε} : Safe (require value (Fault.refused error)) := by
  cases value <;> simp [require, Safe]

theorem Safe.bind {source : Outcome ε α} {next : α → Outcome ε β} (safe : Safe source)
    (safeNext : ∀ value, source = .ok value → Safe (next value)) : Safe (source >>= next) := by
  cases source with
  | error _ =>
    intro panicked
    exact safe (by simpa using panicked)
  | ok value => exact safeNext value rfl

def foldOutcome {ε σ α : Type} (step : σ → α → Except ε σ) : σ → List α → Except ε σ
  | state, [] => .ok state
  | state, item :: rest => step state item >>= fun next => foldOutcome step next rest

section
variable {step : σ → α → Except ε σ}

@[simp] theorem foldOutcome_nil (state : σ) : foldOutcome step state [] = .ok state := rfl

theorem foldOutcome_cons (state : σ) (item : α) (rest : List α) : foldOutcome step state (item :: rest) =
      step state item >>= fun next => foldOutcome step next rest := rfl

theorem foldOutcome_singleton (state : σ) (item : α) : foldOutcome step state [item] = step state item :=
  bind_pure _

theorem foldOutcome_append (state : σ) (front back : List α) : foldOutcome step state (front ++ back) =
      foldOutcome step state front >>= fun next => foldOutcome step next back := by
  induction front generalizing state with
  | nil => rfl
  | cons item _ ih =>
    simp only [cons_append, foldOutcome_cons]
    cases step state item with
    | error _ => rfl
    | ok next => simpa using ih next

theorem foldOutcome_invariant {property : σ → Prop} {items : List α} {initial final : σ}
    (preserved : ∀ state item next, item ∈ items → property state → step state item = .ok next → property next)
    (start : property initial) (result : foldOutcome step initial items = .ok final) : property final := by
  induction items generalizing initial with
  | nil =>
    simp only [foldOutcome_nil, Except.ok.injEq] at result
    exact result ▸ start
  | cons item _ ih =>
    simp only [foldOutcome_cons, bind_eq_ok] at result
    obtain ⟨next, stepped, remaining⟩ := result
    refine ih (fun state other after member => preserved state other after (.tail _ member)) ?_ remaining
    exact preserved initial item next mem_cons_self start stepped

/-- A fold that takes each key once, if it passes a check. -/
theorem foldOutcome_distinct {κ : Type} (key : α → κ) (check : κ → Prop) (reached : List α → σ)
    (stepped : ∀ front item next, (front.map key).Nodup → (∀ other ∈ front.map key, check other) →
      (step (reached front) item = .ok next ↔
        (key item ∉ front.map key ∧ check (key item)) ∧ next = reached (front ++ [item])))
    {items : List α} {final : σ} : foldOutcome step (reached []) items = .ok final ↔
      ((items.map key).Nodup ∧ ∀ other ∈ items.map key, check other) ∧ final = reached items := by
  induction items using reverseRecOn generalizing final with
  | nil => simp [eq_comm]
  | append_singleton front item ih =>
    simp only [foldOutcome_append, foldOutcome_singleton, bind_eq_ok, ih, and_assoc, exists_and_left, exists_eq_left]
    rw [← and_assoc, and_congr_right fun both => stepped front item final both.1 both.2, map_append,
      map_singleton, forall_mem_append, forall_mem_singleton, nodup_append_comm, singleton_append, nodup_cons]
    tauto

end

/-- The operation does not panic, and a value it returns has the property. -/
def Yields {ε α : Type} (property : α → Prop) : Outcome ε α → Prop
  | .ok value => property value
  | .error (.refused _) => True
  | .error .panicked => False

variable {property : α → Prop} {outcome : Outcome ε α}

theorem Yields.bind {result : β → Prop} {next : α → Outcome ε β} (yields : Yields property outcome)
    (continues : ∀ value, property value → Yields result (next value)) : Yields result (outcome >>= next) := by
  match outcome, yields with
  | .ok value, holds => exact continues value holds
  | .error (.refused _), _ => trivial

theorem yields_ensure {condition : Prop} [Decidable condition] {error : ε} :
    Yields (fun _ => condition) (ensure condition (.refused error)) := by
  unfold ensure
  split
  · next holds => exact holds
  · trivial

theorem yields_require {value : Option α} {error : ε} :
    Yields (fun found => value = some found) (require value (.refused error)) := by
  cases value with
  | none => trivial
  | some _ => exact rfl

theorem Yields.foldOutcome {step : σ → α → Outcome ε σ} {invariant : σ → Prop}
    (preserved : ∀ state item, invariant state → Yields invariant (step state item)) {initial : σ}
    (start : invariant initial) (items : List α) : Yields invariant (foldOutcome step initial items) := by
  induction items generalizing initial with
  | nil => exact start
  | cons item _ ih => exact (preserved initial item start).bind fun _ holds => ih holds

end

/-- Both computations return related values, or both fail with one error. -/
inductive Lockstep {ε α β : Type} (related : α → β → Prop) : Except ε α → Except ε β → Prop
  | ok {left : α} {right : β} (holds : related left right) : Lockstep related (.ok left) (.ok right)
  | error (error : ε) : Lockstep related (.error error) (.error error)

variable {ε α β γ δ : Type} {related : α → β → Prop} {relatedNext : γ → δ → Prop}
  {left : Except ε α} {right : Except ε β}

theorem Lockstep.mono {weaker : α → β → Prop} (both : Lockstep related left right)
    (weakens : ∀ leftValue rightValue, related leftValue rightValue → weaker leftValue rightValue) :
    Lockstep weaker left right := by
  cases both with
  | ok holds => exact .ok (weakens _ _ holds)
  | error error => exact .error error

variable {leftNext : α → Except ε γ}

theorem Lockstep.bind {rightNext : β → Except ε δ} (first : Lockstep related left right)
    (next : ∀ leftValue rightValue, related leftValue rightValue →
      Lockstep relatedNext (leftNext leftValue) (rightNext rightValue)) :
    Lockstep relatedNext (left >>= leftNext) (right >>= rightNext) := by
  cases first with
  | ok holds => exact next _ _ holds
  | error error => exact .error error

theorem Lockstep.bind_same {shared : Except ε α} {rightNext : α → Except ε δ}
    (next : ∀ value, shared = .ok value → Lockstep relatedNext (leftNext value) (rightNext value)) :
    Lockstep relatedNext (shared >>= leftNext) (shared >>= rightNext) := by
  cases outcome : shared with
  | ok value => exact next value outcome
  | error error => exact .error error

theorem Lockstep.ensure {leftGuard rightGuard : Prop} [Decidable leftGuard] [Decidable rightGuard]
    {error : ε} {left : Except ε γ} {right : Except ε δ} (same : leftGuard ↔ rightGuard)
    (next : rightGuard → Lockstep relatedNext left right) :
    Lockstep relatedNext (Foundation.ensure leftGuard error >>= fun _ => left)
      (Foundation.ensure rightGuard error >>= fun _ => right) := by
  by_cases holds : rightGuard
  · rw [ensure_of holds, ensure_of (same.mpr holds)]
    exact next holds
  · rw [ensure_of_not (mt same.mp holds), ensure_of_not holds]
    exact .error error

theorem Lockstep.foldOutcome {ι : Type} {leftStep : α → ι → Except ε α} {rightStep : β → ι → Except ε β}
    (step : ∀ left right item, related left right → Lockstep related (leftStep left item) (rightStep right item))
    {items : List ι} {left : α} {right : β} (holds : related left right) :
    Lockstep related (Foundation.foldOutcome leftStep left items) (Foundation.foldOutcome rightStep right items) := by
  induction items generalizing left right with
  | nil => exact .ok holds
  | cons item _ ih => exact (step left right item holds).bind fun _ _ next => ih next

theorem Lockstep.of_ok {value : α} (both : Lockstep related left right) (succeeds : left = .ok value) :
    ∃ other, right = .ok other ∧ related value other := by
  cases both with
  | ok holds =>
    cases succeeds
    exact ⟨_, rfl, holds⟩
  | error _ => cases succeeds

theorem Lockstep.of_error {fault : ε}
    (both : Lockstep related left right) (fails : left = .error fault) : right = .error fault := by
  cases both with
  | ok _ => cases fails
  | error _ =>
    cases fails
    rfl

inductive Query (κ ν α : Type) where
  | done (value : α)
  | ask (key : κ) (next : ν → Query κ ν α)

namespace Query

variable {κ ν α β ε σ : Type}

def bind : Query κ ν α → (α → Query κ ν β) → Query κ ν β
  | done value, next => next value
  | ask key resume, next => ask key fun answer => (resume answer).bind next

instance : Monad (Query κ ν) where
  pure := done
  bind := Query.bind

def read (key : κ) : Query κ ν ν := ask key done

def run (answer : κ → ν) : Query κ ν α → α
  | done value => value
  | ask key next => (next (answer key)).run answer

@[simp] theorem run_pure (answer : κ → ν) (value : α) : (pure value : Query κ ν α).run answer = value := rfl

@[simp] theorem run_read (answer : κ → ν) (key : κ) : (read key).run answer = answer key := rfl

@[simp] theorem run_bind (answer : κ → ν) (program : Query κ ν α) (next : α → Query κ ν β) :
    (program >>= next).run answer = (next (program.run answer)).run answer := by
  induction program with
  | done _ => rfl
  | ask key _ ih => exact ih (answer key)

def evaluate (answer : κ → ν) (program : ExceptT ε (Query κ ν) α) : Except ε α :=
  Query.run answer program.run

section
variable (answer : κ → ν)
include answer

@[simp] theorem evaluate_pure (value : α) : evaluate answer (pure value : ExceptT ε (Query κ ν) α) = .ok value := rfl

@[simp] theorem evaluate_bind (program : ExceptT ε (Query κ ν) α)
    (next : α → ExceptT ε (Query κ ν) β) : evaluate answer (program >>= next) =
      evaluate answer program >>= fun value => evaluate answer (next value) := by
  have unfolded : evaluate answer (program >>= next) =
      Query.run answer (ExceptT.bindCont next (Query.run answer program.run)) :=
    run_bind answer program.run (ExceptT.bindCont next)
  rw [unfolded, evaluate]
  cases Query.run answer program.run with
  | ok _ => rfl
  | error _ => rfl

@[simp] theorem evaluate_lift (result : Except ε α) :
    evaluate answer (liftM result : ExceptT ε (Query κ ν) α) = result := rfl

theorem evaluate_read (key : κ) :
    evaluate answer (liftM (read key : Query κ ν ν) : ExceptT ε (Query κ ν) ν) = .ok (answer key) :=
  rfl

end

def asked (answer : κ → ν) : Query κ ν α → List κ
  | done _ => []
  | ask key next => key :: (next (answer key)).asked answer

theorem asked_bind (answer : κ → ν) (program : Query κ ν α) (next : α → Query κ ν β) :
    (program >>= next).asked answer = program.asked answer ++ (next (program.run answer)).asked answer := by
  induction program with
  | done _ => rfl
  | ask key _ ih => exact congrArg (key :: ·) (ih (answer key))

/-- A fallible program that gets past its first part asks for the keys of both. -/
theorem asked_bind_of_ok {answer : κ → ν} {program : ExceptT ε (Query κ ν) α}
    {next : α → ExceptT ε (Query κ ν) β} {value : α} (result : evaluate answer program = .ok value) :
    asked answer (program >>= next).run = asked answer program.run ++ asked answer (next value).run := by
  have unfolded : asked answer (program >>= next).run = asked answer program.run ++
      asked answer (ExceptT.bindCont next (Query.run answer program.run)) :=
    asked_bind answer program.run (ExceptT.bindCont next)
  rw [unfolded, show Query.run answer program.run = .ok value from result]
  rfl

abbrev Reader (σ κ ν : Type) := σ → κ → ν × σ

variable (get : Reader σ κ ν)

def runOn : Query κ ν α → σ → α × σ
  | done value, state => (value, state)
  | ask key next, state => (next (get state key).1).runOn (get state key).2

/-- While the invariant holds the store answers like the function, and reads keep the invariant. -/
structure Answers (invariant : σ → Prop) (answer : κ → ν) : Prop where
  value : ∀ state key, invariant state → (get state key).1 = answer key
  keeps : ∀ state key, invariant state → invariant (get state key).2

variable {get} {invariant : σ → Prop} {answer : κ → ν}

theorem Answers.runOn (answers : Answers get invariant answer) (program : Query κ ν α) {state : σ}
    (holds : invariant state) :
    (program.runOn get state).1 = program.run answer ∧ invariant (program.runOn get state).2 := by
  induction program generalizing state with
  | done value => exact ⟨rfl, holds⟩
  | ask key _ ih =>
    have resumed := ih (get state key).1 (answers.keeps state key holds)
    rw [answers.value state key holds] at resumed
    simp only [Query.runOn, answers.value state key holds]
    exact resumed

/-- Keys a store has come to know stay known, and reading a key makes it known. -/
structure Retains (get : Reader σ κ ν) (knows : σ → κ → Prop) : Prop where
  learns : ∀ state key, knows (get state key).2 key
  keeps : ∀ state key other, knows state other → knows (get state key).2 other

/-- A program leaves every key known that was known before it or that it asked for. -/
theorem Answers.runOn_knows {knows : σ → κ → Prop} (answers : Answers get invariant answer)
    (retains : Retains get knows) (program : Query κ ν α) {state : σ} (holds : invariant state)
    {key : κ} (known : knows state key ∨ key ∈ program.asked answer) : knows (program.runOn get state).2 key := by
  induction program generalizing state with
  | done value => exact known.resolve_right (List.not_mem_nil)
  | ask first _ ih =>
    have value := answers.value state first holds
    apply ih _ (answers.keeps state first holds)
    rw [value]
    cases known with
    | inl before => exact .inl (retains.keeps state first key before)
    | inr member =>
      cases List.mem_cons.mp member with
      | inl same => exact .inl (same ▸ retains.learns state first)
      | inr later => exact .inr later

end Query

end Rbtc.Foundation
