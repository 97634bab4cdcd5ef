import Mathlib.Data.List.Infix

/- Deterministic machines driven by a list of events. A disabled event is `none`
   and ends the run there. Scheduling and fault outcomes are data of the events,
   so a statement about every event list is about every interleaving. -/
namespace EventRuns
universe u v
variable {State : Type u} {Event : Type v}

def run (step : State → Event → Option State) : State → List Event → Option State
  | s, [] => some s
  | s, e :: es => (step s e).bind fun s' => run step s' es

/-- The property holds of every state the run reaches, the first one included. -/
def Always (step : State → Event → Option State) (property : State → Prop)
    (s : State) (es : List Event) : Prop :=
  ∀ pre, pre <+: es → ∀ s', run step s pre = some s' → property s'

/-- Every step the run takes meets the condition on the state before it. -/
def Guarded (step : State → Event → Option State) (ok : State → Event → Prop) :
    State → List Event → Prop
  | _, [] => True
  | s, e :: es => ∀ s', step s e = some s' → ok s e ∧ Guarded step ok s' es

/-- Every step the run takes has the given effect. -/
def EachStep (step : State → Event → Option State) (effect : State → Event → State → Prop) :
    State → List Event → Prop
  | _, [] => True
  | s, e :: es => ∀ s', step s e = some s' → effect s e s' ∧ EachStep step effect s' es

variable {step : State → Event → Option State}

instance decidableGuarded {ok : State → Event → Prop} [∀ s e, Decidable (ok s e)] :
    ∀ (s : State) (es : List Event), Decidable (Guarded step ok s es)
  | _, [] => isTrue trivial
  | s, e :: es =>
    match reached : step s e with
    | none => isTrue (by intro s' first; rw [reached] at first; cases first)
    | some t =>
      have : Decidable (Guarded step ok t es) := decidableGuarded t es
      decidable_of_iff (ok s e ∧ Guarded step ok t es) (by
        constructor
        · intro both s' first
          rw [reached, Option.some.injEq] at first
          exact first ▸ both
        · intro all; exact all t reached)

@[simp] theorem run_nil (s : State) : run step s [] = some s := rfl

@[simp] theorem run_cons (s : State) (e : Event) (es : List Event) :
    run step s (e :: es) = (step s e).bind fun s' => run step s' es := rfl

theorem run_append (s : State) (es later : List Event) :
    run step s (es ++ later) = (run step s es).bind fun s' => run step s' later := by
  induction es generalizing s with
  | nil => rfl
  | cons e es ih =>
    rw [List.cons_append, run_cons, run_cons, Option.bind_assoc]
    exact Option.bind_congr fun s' _ => ih s'

theorem always_cons {property : State → Prop} {s : State} {e : Event} {es : List Event} :
    Always step property s (e :: es) ↔
      property s ∧ ∀ s', step s e = some s' → Always step property s' es := by
  constructor
  · intro always
    refine ⟨always [] List.nil_prefix s rfl, ?_⟩
    intro s' first pre inside t reach
    apply always (e :: pre) (List.cons_prefix_cons.mpr ⟨rfl, inside⟩)
    simp only [run_cons, first, Option.bind_some, reach]
  · rintro ⟨here, later⟩ pre inside t reach
    cases pre with
    | nil =>
      simp only [run_nil, Option.some.injEq] at reach
      exact reach ▸ here
    | cons f pre =>
      obtain ⟨same, shorter⟩ := List.cons_prefix_cons.mp inside
      subst f
      simp only [run_cons, Option.bind_eq_some_iff] at reach
      obtain ⟨s', first, reach⟩ := reach
      exact later s' first pre shorter t reach

theorem always_final {property : State → Prop} {s s' : State} {es : List Event}
    (always : Always step property s es) (reach : run step s es = some s') : property s' :=
  always es List.prefix_rfl s' reach

theorem guarded_of_events {ok : State → Event → Prop} {s : State} {es : List Event}
    (each : ∀ e ∈ es, ∀ s, ok s e) : Guarded step ok s es := by
  induction es generalizing s with
  | nil => trivial
  | cons e es ih =>
    intro s' _
    exact ⟨each e (by simp) s, ih (fun f hf => each f (by simp [hf]))⟩

theorem guarded_and {ok also : State → Event → Prop} {s : State} {es : List Event}
    (guarded : Guarded step ok s es) (each : ∀ e ∈ es, ∀ s, also s e) :
    Guarded step (fun s e => ok s e ∧ also s e) s es := by
  induction es generalizing s with
  | nil => trivial
  | cons e es ih =>
    intro s' first
    obtain ⟨meets, rest⟩ := guarded s' first
    exact ⟨⟨meets, each e (by simp) s⟩, ih rest (fun f hf => each f (by simp [hf]))⟩

/-- An invariant that guarded steps keep holds at the end of a guarded run. -/
theorem invariant_run (invariant : State → Prop) (ok : State → Event → Prop)
    (keeps : ∀ s e s', invariant s → ok s e → step s e = some s' → invariant s')
    {s s' : State} {es : List Event} (start : invariant s)
    (guarded : Guarded step ok s es) (reach : run step s es = some s') : invariant s' := by
  induction es generalizing s with
  | nil =>
    simp only [run_nil, Option.some.injEq] at reach
    exact reach ▸ start
  | cons e es ih =>
    simp only [run_cons, Option.bind_eq_some_iff] at reach
    obtain ⟨t, first, reach⟩ := reach
    obtain ⟨meets, rest⟩ := guarded t first
    exact ih (keeps s e t start meets first) rest reach

theorem invariant_always (invariant : State → Prop) {property : State → Prop}
    {ok : State → Event → Prop}
    (safe : ∀ s, invariant s → property s)
    (keeps : ∀ s e s', invariant s → ok s e → step s e = some s' → invariant s')
    {s : State} {es : List Event} (start : invariant s)
    (guarded : Guarded step ok s es) : Always step property s es := by
  induction es generalizing s with
  | nil =>
    intro pre inside t reach
    rw [List.prefix_nil.mp inside, run_nil, Option.some.injEq] at reach
    exact reach ▸ safe s start
  | cons e es ih =>
    refine always_cons.mpr ⟨safe s start, ?_⟩
    intro s' first
    obtain ⟨meets, rest⟩ := guarded s' first
    exact ih (keeps s e s' start meets first) rest

/- When a step outside the guard breaks the property at once, the guard is exact:
   the property holds along a run if and only if each of its steps is guarded. -/
theorem always_iff_guarded (invariant : State → Prop) {property : State → Prop}
    {ok : State → Event → Prop}
    (safe : ∀ s, invariant s → property s)
    (keeps : ∀ s e s', invariant s → ok s e → step s e = some s' → invariant s')
    (breaks : ∀ s e s', invariant s → ¬ ok s e → step s e = some s' → ¬ property s')
    {s : State} (start : invariant s) (es : List Event) :
    Always step property s es ↔ Guarded step ok s es := by
  constructor
  · intro always
    induction es generalizing s with
    | nil => trivial
    | cons e es ih =>
      intro s' first
      have later := (always_cons.mp always).2 s' first
      have here : property s' := later [] List.nil_prefix s' rfl
      have meets : ok s e := by
        by_contra outside
        exact breaks s e s' start outside first here
      exact ⟨meets, ih (keeps s e s' start meets first) later⟩
  · exact invariant_always invariant safe keeps start

theorem eachStep_last {effect : State → Event → State → Prop} {s t s' : State} {e : Event}
    {es : List Event} (each : EachStep step effect s (es ++ [e])) (reach : run step s es = some t)
    (last : step t e = some s') : effect t e s' := by
  induction es generalizing s with
  | nil =>
    simp only [run_nil, Option.some.injEq] at reach
    subst t
    exact (each s' last).1
  | cons f es ih =>
    simp only [run_cons, Option.bind_eq_some_iff] at reach
    obtain ⟨u, first, reach⟩ := reach
    exact ih (each u first).2 reach

/-- Where guarded steps keep the invariant, and have the effect exactly on a condition, a
    guarded run has the effect throughout exactly when every step meets the condition. -/
theorem eachStep_iff_guarded_under (invariant : State → Prop) {also ok : State → Event → Prop}
    {effect : State → Event → State → Prop}
    (keeps : ∀ s e s', invariant s → also s e → step s e = some s' → invariant s')
    (exact_step : ∀ s e s', invariant s → also s e → step s e = some s' → (effect s e s' ↔ ok s e))
    {s : State} {es : List Event} (start : invariant s) (guarded : Guarded step also s es) :
    EachStep step effect s es ↔ Guarded step ok s es := by
  induction es generalizing s with
  | nil => exact Iff.rfl
  | cons e es ih =>
    simp only [EachStep, Guarded]
    apply forall_congr'
    intro s'
    apply forall_congr'
    intro first
    obtain ⟨meets, rest⟩ := guarded s' first
    exact and_congr (exact_step s e s' start meets first) (ih (keeps s e s' start meets first) rest)

/-- Where steps that meet the condition keep the invariant, and a step has the effect
    exactly when it meets it, a run has the effect throughout exactly when it is guarded. -/
theorem eachStep_iff_guarded (invariant : State → Prop) {ok : State → Event → Prop}
    {effect : State → Event → State → Prop}
    (keeps : ∀ s e s', invariant s → ok s e → step s e = some s' → invariant s')
    (exact_step : ∀ s e s', invariant s → step s e = some s' → (effect s e s' ↔ ok s e))
    {s : State} (start : invariant s) (es : List Event) :
    EachStep step effect s es ↔ Guarded step ok s es := by
  induction es generalizing s with
  | nil => exact Iff.rfl
  | cons e es ih =>
    simp only [EachStep, Guarded]
    apply forall_congr'
    intro s'
    apply forall_congr'
    intro first
    rw [exact_step s e s' start first]
    apply and_congr_right
    intro meets
    exact ih (keeps s e s' start meets first)

/-- What a step from the invariant does, it does along the whole run. -/
theorem eachStep_of_invariant (invariant : State → Prop) {ok : State → Event → Prop}
    {effect : State → Event → State → Prop}
    (keeps : ∀ s e s', invariant s → ok s e → step s e = some s' → invariant s')
    (does : ∀ s e s', invariant s → ok s e → step s e = some s' → effect s e s')
    {s : State} {es : List Event} (start : invariant s)
    (guarded : Guarded step ok s es) : EachStep step effect s es := by
  induction es generalizing s with
  | nil => trivial
  | cons e es ih =>
    intro s' first
    obtain ⟨meets, rest⟩ := guarded s' first
    exact ⟨does s e s' start meets first, ih (keeps s e s' start meets first) rest⟩

def Completes (step : State → Event → Option State) (property : State → Prop) :
    State → List Event → Prop
  | _, [] => True
  | s, e :: es => ∃ s', step s e = some s' ∧ property s' ∧ Completes step property s' es

/-- Every event meets the condition on the state before it, also where it is not answered. -/
def Respected (step : State → Event → Option State) (ok : State → Event → Prop) :
    State → List Event → Prop
  | _, [] => True
  | s, e :: es => ok s e ∧ ∀ s', step s e = some s' → Respected step ok s' es

theorem completes_iff_respected {property : State → Prop} {ok : State → Event → Prop}
    (answered : ∀ s e, property s → ok s e → ∃ s', step s e = some s' ∧ property s')
    (refused : ∀ s e, property s → ¬ ok s e → step s e = none)
    {s : State} (start : property s) (es : List Event) :
    Completes step property s es ↔ Respected step ok s es := by
  induction es generalizing s with
  | nil => exact Iff.rfl
  | cons e es ih =>
    constructor
    · intro completes
      obtain ⟨s', first, holds, rest⟩ := completes
      have meets : ok s e := by
        by_contra outside
        rw [refused s e start outside] at first
        cases first
      refine ⟨meets, ?_⟩
      intro t again
      rw [first, Option.some.injEq] at again
      exact again ▸ (ih holds).mp rest
    · intro respected
      obtain ⟨s', first, holds⟩ := answered s e start respected.1
      exact ⟨s', first, holds, (ih holds).mpr (respected.2 s' first)⟩

end EventRuns
