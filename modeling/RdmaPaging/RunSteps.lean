import Mathlib.Data.List.Induction
import Mathlib.Data.List.Infix

/-!
Runs of a total step function, and what holds at every step of a run. A claim about every step
follows from an invariant, and two claims that agree where the invariant holds agree on runs.
-/

namespace RunSteps

variable {S E : Type*} (step : S → E → S) (start : S)

def after (events : List E) : S := events.foldl step start

/-- Something holds of every event of a run, with the state that the event finds. -/
def Each (holds : S → E → Prop) (events : List E) : Prop :=
  ∀ before event, before ++ [event] <+: events → holds (after step start before) event

variable {step start} {holds valid claim : S → E → Prop} {events first : List E} {event : E}

theorem after_snoc (step : S → E → S) (start : S) (events : List E) (event : E) :
    after step start (events ++ [event]) = step (after step start events) event := by
  simp [after]

theorem each_nil : Each step start holds [] := by
  intro before event initial
  simp at initial

theorem Each.within (each : Each step start holds events) (initial : first <+: events) :
    Each step start holds first :=
  fun before event within => each before event (within.trans initial)

theorem each_snoc : Each step start holds (events ++ [event]) ↔
    Each step start holds events ∧ holds (after step start events) event := by
  constructor
  · intro each
    exact ⟨each.within (List.prefix_append _ _), each events event (List.prefix_refl _)⟩
  · rintro ⟨each, last⟩ before other initial
    rcases List.prefix_concat_iff.mp initial with whole | within
    · obtain ⟨rfl, same⟩ := List.append_inj' whole rfl
      obtain rfl := List.singleton_inj.mp same
      exact last
    · exact each before other within

theorem Each.and (each : Each step start holds events) (other : Each step start valid events) :
    Each step start (fun state event => holds state event ∧ valid state event) events :=
  fun before event initial => ⟨each before event initial, other before event initial⟩

/-- A run whose events all meet a condition keeps an invariant. -/
theorem Each.invariant {kept : S → Prop} (each : Each step start holds events) (begins : kept start)
    (keeps : ∀ state event, kept state → holds state event → kept (step state event)) :
    kept (after step start events) := by
  induction events using List.reverseRecOn with
  | nil => exact begins
  | append_singleton events event ih =>
      obtain ⟨earlier, last⟩ := each_snoc.mp each
      rw [after_snoc]
      exact keeps _ _ (ih earlier) last

/-- Where the condition keeps an invariant under which a claim and the condition agree about one
event, they agree about runs. -/
theorem each_iff {kept : S → Prop} (begins : kept start)
    (keeps : ∀ state event, kept state → valid state event → holds state event →
      kept (step state event))
    (agree : ∀ state event, kept state → valid state event → (claim state event ↔ holds state event))
    (allValid : Each step start valid events) :
    Each step start claim events ↔ Each step start holds events := by
  have invariant : ∀ {events}, Each step start valid events → Each step start holds events →
      kept (after step start events) := by
    intro events allValid each
    exact (allValid.and each).invariant begins fun state event here both =>
      keeps state event here both.1 both.2
  induction events using List.reverseRecOn with
  | nil => exact iff_of_true each_nil each_nil
  | append_singleton events event ih =>
      obtain ⟨earlierValid, lastValid⟩ := each_snoc.mp allValid
      rw [each_snoc, each_snoc]
      constructor
      · rintro ⟨claims, last⟩
        have each := (ih earlierValid).mp claims
        exact ⟨each, (agree _ _ (invariant earlierValid each) lastValid).mp last⟩
      · rintro ⟨each, last⟩
        exact ⟨(ih earlierValid).mpr each, (agree _ _ (invariant earlierValid each) lastValid).mpr last⟩

end RunSteps
