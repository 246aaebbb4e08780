import Mathlib.Data.List.Basic

/-
  Deterministic step systems with explicit actions.

  A system is a function `step : S → A → Option S`; a result
  of `none` means that the action is not possible in the
  state.  A guard is a condition on the state before an
  action, and a guarded run is one whose every action meets
  the guard where it is taken.

  Key definitions include:
    * `StepSystem.run`
    * `StepSystem.Guarded`

  Key theorems include:
    * `StepSystem.invariant_of_guarded_run`
    * `StepSystem.invariant_of_run`
-/

------------
-- Runs
------------

namespace StepSystem

variable {S A : Type}

/- Perform a list of actions one after the other. -/
def run (step : S → A → Option S) :
    S → List A → Option S
| s, [] => some s
| s, a :: rest =>
  match step s a with
  | none => none
  | some s' => run step s' rest

/- Every action of the list meets the guard in the state in
  which it is taken. -/
def Guarded
    (step : S → A → Option S)
    (guard : S → A → Prop) :
    S → List A → Prop
| _, [] => True
| s, a :: rest =>
  guard s a ∧
    match step s a with
    | none => True
    | some s' => Guarded step guard s' rest

instance decidableGuarded
    (step : S → A → Option S)
    (guard : S → A → Prop)
    [∀ s a, Decidable (guard s a)] :
    ∀ (s : S) (acts : List A),
      Decidable (Guarded step guard s acts)
| _, [] => inferInstanceAs (Decidable True)
| s, a :: rest =>
  have : Decidable
      (match step s a with
      | none => True
      | some s' => Guarded step guard s' rest) :=
    match step s a with
    | none => inferInstanceAs (Decidable True)
    | some s' =>
      decidableGuarded step guard s' rest
  inferInstanceAs (Decidable (_ ∧ _))

/- A nonempty run takes its first step and goes on. -/
theorem run_cons_eq_some
    {step : S → A → Option S}
    {s t : S}
    {a : A}
    {rest : List A} :
    run step s (a :: rest) = some t ↔ ∃ s', step s a = some s' ∧
      run step s' rest = some t := by
  cases hStep : step s a with
  | none | some s' => simp [run, hStep]

/- The end of a run that has been computed. -/
theorem exists_of_any
    {o : Option S}
    {p : S → Prop}
    [DecidablePred p]
    (hAny : o.any (fun s => decide (p s)) = true) :
    ∃ s, o = some s ∧ p s := by
  cases o with
  | none => cases hAny
  | some s => exact ⟨s, rfl, of_decide_eq_true hAny⟩

theorem eq_some_getD
    {o : Option S}
    (hSome : o.isSome = true)
    (s : S) :
    o = some (o.getD s) := by
  cases o with
  | none => cases hSome
  | some s' => rfl

end StepSystem

------------
-- Invariants
------------

namespace StepSystem

variable {S A : Type}
variable {step : S → A → Option S}
variable {guard : S → A → Prop}

/- A property kept by every guarded step holds at the end of
  every guarded run that starts in it. -/
theorem invariant_of_guarded_run
    (Inv : S → Prop)
    (hKeeps : ∀ s a s', Inv s → guard s a → step s a = some s' → Inv s')
    {s t : S}
    {acts : List A}
    (hInit : Inv s)
    (hGuard : Guarded step guard s acts)
    (hRun : run step s acts = some t) :
    Inv t := by
  induction acts generalizing s with
  | nil =>
    cases hRun
    exact hInit
  | cons a rest ih =>
    rcases run_cons_eq_some.mp hRun with ⟨s', hStep, hRest⟩
    rcases hGuard with ⟨hHere, hLater⟩
    rw [hStep] at hLater
    exact ih (hKeeps s a s' hInit hHere hStep) hLater hRest

/- A guard that does not look at the state. -/
theorem guarded_of_forall
    {p : A → Prop}
    (s : S)
    {acts : List A}
    (hAll : ∀ a ∈ acts, p a) :
    Guarded step (fun _ a => p a) s acts := by
  induction acts generalizing s with
  | nil => trivial
  | cons a rest ih =>
    refine ⟨hAll a List.mem_cons_self, ?_⟩
    cases step s a with
    | none => trivial
    | some s' =>
      exact ih s' (fun b hB => hAll b (List.mem_cons_of_mem a hB))

/- A guard that is weaker in the states of an invariant. -/
theorem Guarded.mono_of_invariant
    {weaker : S → A → Prop}
    (Inv : S → Prop)
    (hKeeps : ∀ s a s', Inv s → step s a = some s' → Inv s')
    (hWeaker : ∀ s a, Inv s → guard s a → weaker s a)
    {s : S}
    {acts : List A}
    (hInit : Inv s)
    (hGuard : Guarded step guard s acts) :
    Guarded step weaker s acts := by
  induction acts generalizing s with
  | nil => trivial
  | cons a rest ih =>
    refine ⟨hWeaker s a hInit hGuard.1, ?_⟩
    have hLater := hGuard.2
    cases hStep : step s a with
    | none => trivial
    | some s' =>
      rw [hStep] at hLater
      exact ih (hKeeps s a s' hInit hStep) hLater

/- A weaker guard. -/
theorem Guarded.mono
    {weaker : S → A → Prop}
    (hWeaker : ∀ s a, guard s a → weaker s a)
    {s : S}
    {acts : List A}
    (hGuard : Guarded step guard s acts) :
    Guarded step weaker s acts :=
  hGuard.mono_of_invariant (fun _ => True) (fun _ _ _ _ _ => trivial) (fun s a _ => hWeaker s a)
    trivial

theorem Guarded.and
    {other : S → A → Prop}
    {s : S}
    {acts : List A}
    (hGuard : Guarded step guard s acts)
    (hOther : Guarded step other s acts) :
    Guarded step (fun s a => guard s a ∧ other s a) s acts := by
  induction acts generalizing s with
  | nil => trivial
  | cons a rest ih =>
    refine ⟨⟨hGuard.1, hOther.1⟩, ?_⟩
    have hLater := hGuard.2
    have hLater' := hOther.2
    cases hStep : step s a with
    | none => trivial
    | some s' =>
      rw [hStep] at hLater hLater'
      exact ih hLater hLater'

/- The rule for runs without a guard. -/
theorem invariant_of_run
    (Inv : S → Prop)
    (hKeeps : ∀ s a s', Inv s → step s a = some s' → Inv s')
    {s t : S}
    {acts : List A}
    (hInit : Inv s)
    (hRun : run step s acts = some t) :
    Inv t := by
  have hFree : Guarded step (fun _ _ => True) s acts := guarded_of_forall s (fun _ _ => trivial)
  refine invariant_of_guarded_run Inv ?_ hInit hFree hRun
  exact fun s a s' hInv _ => hKeeps s a s' hInv

end StepSystem
