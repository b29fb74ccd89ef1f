import Mathlib.Logic.Function.Basic
import Mathlib.Data.Option.Basic

/-!
Caches of a map. A cache takes its values from the map, keeps them when the map changes, and
loses them only by a drop. A value that the map no longer has is allowed where a drop is owed.
-/

namespace MapCache

variable {Key Value : Type*}

/-- The cache without the values that a drop is about. -/
def drop (dead : Key → Value → Bool) (cache : Key → Option Value) : Key → Option Value :=
  fun key => (cache key).filter fun value => !dead key value

/-- Every cached value is the map's, or its drop is owed. -/
def Fits (map cache : Key → Option Value) (owed : Key → Prop) : Prop :=
  ∀ key value, cache key = some value → map key = some value ∨ owed key

variable {map later cache small : Key → Option Value} {owed left : Key → Prop}
variable {dead : Key → Value → Bool}

theorem drop_eq_some {key : Key} {value : Value} :
    drop dead cache key = some value ↔ cache key = some value ∧ dead key value = false := by
  simp [drop, Option.filter_eq_some_iff]

theorem Fits.empty (nothing : ∀ key, cache key = none) : Fits map cache owed := by
  intro key value cached
  rw [nothing key] at cached
  exact absurd cached (by simp)

/-- A cache with fewer values fits, where what is owed is still owed or the value is gone. -/
theorem Fits.shrink (fits : Fits map cache owed)
    (fewer : ∀ key value, small key = some value → cache key = some value)
    (owes : ∀ key value, small key = some value → owed key → left key) : Fits map small left := by
  intro key value cached
  rcases fits key value (fewer key value cached) with same | debt
  · exact Or.inl same
  · exact Or.inr (owes key value cached debt)

theorem Fits.weaken (fits : Fits map cache owed) (owes : ∀ key, owed key → left key) :
    Fits map cache left :=
  fits.shrink (fun _ _ cached => cached) fun key _ _ => owes key

/-- A value that is looked up in the map may be cached. -/
theorem Fits.fill [DecidableEq Key] (fits : Fits map cache owed) (place : Key) :
    Fits map (Function.update cache place (map place)) owed := by
  intro key value cached
  by_cases here : key = place
  · subst here
    rw [Function.update_self] at cached
    exact Or.inl cached
  · rw [Function.update_of_ne here] at cached
    exact fits key value cached

/-- The map may change where drops are then owed, and where nothing is cached. -/
theorem Fits.change (fits : Fits map cache owed) (owes : ∀ key, owed key → left key)
    (changed : ∀ key value, map key = some value → cache key = some value → later key ≠ map key →
      left key) : Fits later cache left := by
  intro key value cached
  rcases fits key value cached with same | debt
  · by_cases kept : later key = map key
    · exact Or.inl (kept.trans same)
    · exact Or.inr (changed key value same cached kept)
  · exact Or.inr (owes key debt)

end MapCache
