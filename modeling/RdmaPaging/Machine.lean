import Mathlib.Logic.Function.Basic

/-!
Runs of a machine given by a partial step function. An action that is not
enabled has no next state. A guard restricts which enabled steps a run may take.
-/

namespace Machine

variable {S A : Type*}

inductive Reaches (step : S → A → Option S) (guard : S → A → Prop) (start : S) : S → Prop
  | refl : Reaches step guard start start
  | tail {state action next} : Reaches step guard start state → guard state action →
      step state action = some next → Reaches step guard start next

theorem Reaches.invariant {step : S → A → Option S} {guard : S → A → Prop} {start final : S}
    (reached : Reaches step guard start final) (kept : S → Prop) (initial : kept start)
    (preserved : ∀ state action next, kept state → guard state action →
      step state action = some next → kept next) : kept final := by
  induction reached with
  | refl => exact initial
  | tail _ allowed stepped ih => exact preserved _ _ _ ih allowed stepped

theorem Reaches.weaken {step : S → A → Option S} {strong weak : S → A → Prop} {start final : S}
    (reached : Reaches step strong start final)
    (weaker : ∀ state action, strong state action → weak state action) :
    Reaches step weak start final := by
  induction reached with
  | refl => exact Reaches.refl
  | tail _ allowed stepped ih => exact Reaches.tail ih (weaker _ _ allowed) stepped

/-- One step of the first machine is no step or one allowed step of the second,
so every run of the first is seen as a run of the second. -/
theorem Reaches.project {T B : Type*} {step : S → A → Option S} {guard : S → A → Prop}
    {low : T → B → Option T} {lowGuard : T → B → Prop} {start final : S}
    (reached : Reaches step guard start final) (view : S → T) (kept : S → Prop)
    (initial : kept start)
    (preserved : ∀ state action next, kept state → Reaches low lowGuard (view start) (view state) →
      guard state action → step state action = some next → kept next)
    (simulated : ∀ state action next, kept state → guard state action →
      step state action = some next → view next = view state ∨
        ∃ lowAction, lowGuard (view state) lowAction ∧
          low (view state) lowAction = some (view next)) :
    kept final ∧ Reaches low lowGuard (view start) (view final) := by
  induction reached with
  | refl => exact ⟨initial, Reaches.refl⟩
  | tail _ allowed stepped ih =>
      refine ⟨preserved _ _ _ ih.1 ih.2 allowed stepped, ?_⟩
      rcases simulated _ _ _ ih.1 allowed stepped with same | ⟨lowAction, lowAllowed, lowStepped⟩
      · rw [same]
        exact ih.2
      · exact Reaches.tail ih.2 lowAllowed lowStepped

/-- Perform the listed actions in order, checking the guard before each one. -/
def checkedRun (step : S → A → Option S) (allowed : S → A → Bool) : S → List A → Option S
  | state, [] => some state
  | state, action :: rest =>
      if allowed state action then
        match step state action with
        | some next => checkedRun step allowed next rest
        | none => none
      else none

theorem reaches_of_checkedRun {step : S → A → Option S} {guard : S → A → Prop}
    {start final : S} (allowed : S → A → Bool) (actions : List A)
    (sound : ∀ state action, allowed state action = true → guard state action)
    (ran : checkedRun step allowed start actions = some final) :
    Reaches step guard start final := by
  suffices general : ∀ state, Reaches step guard start state →
      checkedRun step allowed state actions = some final → Reaches step guard start final from
    general start Reaches.refl ran
  clear ran
  induction actions with
  | nil =>
      intro state reached ran
      simp only [checkedRun, Option.some.injEq] at ran
      rwa [← ran]
  | cons action rest ih =>
      intro state reached ran
      simp only [checkedRun] at ran
      split at ran
      · rename_i permitted
        split at ran
        · rename_i next stepped
          exact ih next (Reaches.tail reached (sound _ _ permitted) stepped) ran
        · simp at ran
      · simp at ran

end Machine
