import RdmaPaging.Machine

/-!
The creation of a thread of the sandboxed application, `dune_pthread_create` and
`pthread_entry` of the sandbox's `trap.c`. The two share a `thread_arg` on the parent's stack.
-/

namespace RdmaPaging

/-- What `gettid` answers in the child. -/
structure Tid where
  value : Int
  positive : 0 < value

/-- The next thing that `dune_pthread_create` does. In `waiting` it has left the mutex to
`pthread_cond_wait`, and in `relock` it was woken. -/
inductive ParentAt
  | condInit | mutexInit | create | lock | check | waiting | relock | unlock | mutexDestroy | condDestroy
  | readTid
  | returned (result : Int)
  deriving DecidableEq

/-- The next thing that `pthread_entry` does. `prepare` works on the trap frame alone. -/
inductive ChildAt
  | absent | loadTf | prepare | lock | store | unlock | signal | entered
  deriving DecidableEq

inductive ArgOwner
  | parent | child
  deriving DecidableEq

/-- The two threads and the `thread_arg`. `late` is set by an access of the child to the
`thread_arg` of a call that has returned. -/
structure Handover where
  parent : ParentAt
  child : ChildAt
  taTid : Int
  taMtx : Option ArgOwner
  late : Bool
  deriving DecidableEq

def handoverStart : Handover := ⟨.condInit, .absent, 0, none, false⟩

/-- A call that may fail carries whether it does, and `wake` is a spurious wake-up. -/
inductive HandoverAction
  | parent (succeeds : Bool)
  | child
  | wake
  deriving DecidableEq

def ParentAt.hasReturned : ParentAt → Bool
  | .returned _ => true
  | _ => false

def dunePthreadCreate (state : Handover) (succeeds : Bool) : Option Handover :=
  match state.parent with
  | .condInit => some { state with parent := if succeeds then .mutexInit else .returned (-1) }
  | .mutexInit => some { state with parent := if succeeds then .create else .returned (-1) }
  | .create =>
      if succeeds then some { state with parent := .lock, child := .loadTf }
      else some { state with parent := .returned (-1) }
  | .lock =>
      if state.taMtx = none then some { state with parent := .check, taMtx := some .parent } else none
  | .check =>
      if state.taTid = 0 then some { state with parent := .waiting, taMtx := none }
      else some { state with parent := .unlock }
  | .waiting => none
  | .relock =>
      if state.taMtx = none then some { state with parent := .unlock, taMtx := some .parent } else none
  | .unlock => some { state with parent := .mutexDestroy, taMtx := none }
  | .mutexDestroy => some { state with parent := .condDestroy }
  | .condDestroy => some { state with parent := .readTid }
  | .readTid => some { state with parent := .returned state.taTid }
  | .returned _ => none

/-- An access of the child to the `thread_arg`. -/
def Handover.access (state : Handover) : Handover :=
  { state with late := state.late || state.parent.hasReturned }

def pthreadEntry (tid : Tid) (state : Handover) : Option Handover :=
  match state.child with
  | .absent => none
  | .loadTf => some { state.access with child := .prepare }
  | .prepare => some { state with child := .lock }
  | .lock =>
      if state.taMtx = none then some { state.access with child := .store, taMtx := some .child } else none
  | .store => some { state.access with child := .unlock, taTid := tid.value }
  | .unlock => some { state.access with child := .signal, taMtx := none }
  | .signal =>
      let parent := if state.parent = .waiting then .relock else state.parent
      some { state.access with child := .entered, parent := parent }
  | .entered => none

def handoverStep (tid : Tid) (state : Handover) : HandoverAction → Option Handover
  | .parent succeeds => dunePthreadCreate state succeeds
  | .child => pthreadEntry tid state
  | .wake => if state.parent = .waiting then some { state with parent := .relock } else none

/-- No state of a run has gone wrong: the parent of a child returns its id, the child leaves the
`thread_arg` alone afterwards, and until the parent returns a thread can go on by itself. -/
structure HandedOver (tid : Tid) (state : Handover) : Prop where
  answered : ∀ result, state.parent = .returned result → state.child ≠ .absent →
    result = tid.value ∧ result ≠ 0
  safe : state.late = false
  live : state.parent.hasReturned = false →
    ∃ action, action ≠ .wake ∧ (handoverStep tid state action).isSome

/-- The wait ends by the signal only, and the parent does not first take the mutex between the
child's unlock and its signal. -/
def Undisturbed (state : Handover) (action : HandoverAction) : Prop :=
  action ≠ .wake ∧ (state.parent = .lock → state.child = .signal → ∀ succeeds, action ≠ .parent succeeds)

/-- The child has not taken the mutex yet. -/
def ChildAt.early : ChildAt → Bool
  | .loadTf | .prepare | .lock => true
  | _ => false

def ChildAt.holds : ChildAt → Bool
  | .store | .unlock => true
  | _ => false

def ChildAt.stored : ChildAt → Bool
  | .unlock | .signal | .entered => true
  | _ => false

def ParentAt.holds : ParentAt → Bool
  | .check | .unlock => true
  | _ => false

/-- Where the child stands for each place of the parent. -/
def ParentAt.matches (tid : Tid) (child : ChildAt) : ParentAt → Prop
  | .condInit | .mutexInit | .create => child = .absent
  | .lock => child ≠ .absent
  | .check => child.early ∨ child = .entered
  | .waiting => child ≠ .absent ∧ child ≠ .entered
  | .relock | .unlock | .mutexDestroy | .condDestroy | .readTid => child = .entered
  | .returned result => (child = .absent ∧ result = -1) ∨ (child = .entered ∧ result = tid.value)

structure HandoverInv (tid : Tid) (state : Handover) : Prop where
  places : state.parent.matches tid state.child
  taTid : state.taTid = if state.child.stored then tid.value else 0
  parentHolds : state.taMtx = some .parent ↔ state.parent.holds
  childHolds : state.taMtx = some .child ↔ state.child.holds
  safe : state.late = false

section Handover

variable {tid : Tid} {state next : Handover}

theorem handoverStart_inv (tid : Tid) : HandoverInv tid handoverStart :=
  ⟨rfl, rfl, by decide, by decide, rfl⟩

theorem HandoverInv.stored_iff (inv : HandoverInv tid state) : state.taTid = 0 ↔ state.child.stored = false := by
  have positive := tid.positive
  rw [inv.taTid]
  cases state.child.stored with
  | true => exact iff_of_false (by rw [if_pos rfl]; omega) nofun
  | false => exact iff_of_true rfl rfl

theorem HandoverInv.not_holds (inv : HandoverInv tid state) (free : state.taMtx ≠ some .child) :
    state.child.holds = false :=
  Bool.eq_false_iff.mpr fun held => free (inv.childHolds.mpr held)

theorem early_working {child : ChildAt} (early : child.early) : child ≠ .absent ∧ child ≠ .entered := by
  refine ⟨?_, ?_⟩ <;> rintro rfl <;> exact nomatch early

theorem dunePthreadCreate_inv (inv : HandoverInv tid state) {succeeds : Bool}
    (undisturbed : state.parent = .lock → state.child ≠ .signal)
    (stepped : dunePthreadCreate state succeeds = some next) : HandoverInv tid next := by
  have storedIff := inv.stored_iff
  have notHolds := inv.not_holds
  obtain ⟨parent, child, taTid, taMtx, late⟩ := state
  obtain ⟨places, stored, parentHolds, childHolds, safe⟩ := inv
  dsimp only at places stored parentHolds childHolds safe storedIff notHolds undisturbed
  cases parent with
  | condInit | mutexInit | create =>
      obtain rfl : child = .absent := places
      cases succeeds with
      | false =>
          obtain rfl := Option.some.inj stepped
          exact ⟨.inl ⟨rfl, rfl⟩, stored, parentHolds, childHolds, safe⟩
      | true =>
          obtain rfl := Option.some.inj stepped
          exact ⟨by first | rfl | exact nofun, stored, parentHolds, childHolds, safe⟩
  | lock =>
      obtain ⟨free, made⟩ := Option.ite_none_right_eq_some.mp stepped
      obtain rfl := Option.some.inj made
      dsimp only at free
      have idle := notHolds (by rw [free]; exact nofun)
      refine ⟨?_, stored, iff_of_true rfl rfl, iff_of_false nofun (by rw [idle]; exact nofun), safe⟩
      cases child with
      | absent => exact absurd rfl places
      | loadTf | prepare | lock => exact .inl rfl
      | store | unlock => exact nomatch idle
      | signal => exact absurd rfl (undisturbed rfl)
      | entered => exact .inr rfl
  | check =>
      have owned : taMtx = some .parent := parentHolds.mpr rfl
      have idle := notHolds (by rw [owned]; exact nofun)
      simp only [dunePthreadCreate] at stepped
      split at stepped
      · rename_i empty
        obtain rfl := Option.some.inj stepped
        have unset := storedIff.mp empty
        refine ⟨?_, stored, iff_of_false nofun nofun, iff_of_false nofun (by rw [idle]; exact nofun), safe⟩
        rcases places with early | rfl
        · exact early_working early
        · exact nomatch unset
      · rename_i filled
        obtain rfl := Option.some.inj stepped
        refine ⟨?_, stored, iff_of_true owned rfl, childHolds, safe⟩
        rcases places with early | entered
        · refine absurd (storedIff.mpr ?_) filled
          cases child <;> first | rfl | exact nomatch early
        · exact entered
  | waiting => exact nomatch stepped
  | relock =>
      obtain ⟨free, made⟩ := Option.ite_none_right_eq_some.mp stepped
      obtain rfl := Option.some.inj made
      obtain rfl : child = .entered := places
      exact ⟨rfl, stored, iff_of_true rfl rfl, iff_of_false nofun nofun, safe⟩
  | unlock =>
      obtain rfl := Option.some.inj stepped
      obtain rfl : child = .entered := places
      exact ⟨rfl, stored, iff_of_false nofun nofun, iff_of_false nofun nofun, safe⟩
  | mutexDestroy | condDestroy =>
      obtain rfl := Option.some.inj stepped
      exact ⟨places, stored, parentHolds, childHolds, safe⟩
  | readTid =>
      obtain rfl := Option.some.inj stepped
      obtain rfl : child = .entered := places
      exact ⟨.inr ⟨rfl, stored⟩, stored, parentHolds, childHolds, safe⟩
  | returned => exact nomatch stepped

/-- While the child has something to do with the `thread_arg`, the parent has not returned. -/
theorem HandoverInv.not_late (inv : HandoverInv tid state) (created : state.child ≠ .absent)
    (working : state.child ≠ .entered) : state.access = state := by
  obtain ⟨parent, child, taTid, taMtx, late⟩ := state
  have safe := inv.safe
  have places := inv.places
  dsimp only at safe places created working
  cases parent with
  | returned result =>
      rcases places with ⟨absent, _⟩ | ⟨entered, _⟩
      · exact absurd absent created
      · exact absurd entered working
  | condInit | mutexInit | create | lock | check | waiting | relock | unlock | mutexDestroy | condDestroy
      | readTid =>
      subst safe
      rfl

theorem ParentAt.matches_move {parent : ParentAt} {child after : ChildAt} (places : parent.matches tid child)
    (working : child ≠ .absent ∧ child ≠ .entered) (still : after ≠ .absent ∧ after ≠ .entered)
    (early : parent = .check → child.early → after.early) : parent.matches tid after := by
  cases parent with
  | condInit | mutexInit | create => exact absurd places working.1
  | lock => exact still.1
  | check => exact places.elim (fun before => .inl (early rfl before)) fun entered => absurd entered working.2
  | waiting => exact still
  | relock | unlock | mutexDestroy | condDestroy | readTid => exact absurd places working.2
  | returned =>
      rcases places with ⟨absent, _⟩ | ⟨entered, _⟩
      · exact absurd absent working.1
      · exact absurd entered working.2

theorem pthreadEntry_inv (inv : HandoverInv tid state) (stepped : pthreadEntry tid state = some next) :
    HandoverInv tid next := by
  have notLate := inv.not_late
  obtain ⟨parent, child, taTid, taMtx, late⟩ := state
  obtain ⟨places, stored, parentHolds, childHolds, safe⟩ := inv
  dsimp only at places stored parentHolds childHolds safe notLate
  cases child with
  | absent | entered => exact nomatch stepped
  | loadTf =>
      rw [pthreadEntry, notLate nofun nofun] at stepped
      obtain rfl := Option.some.inj stepped
      exact ⟨ParentAt.matches_move places ⟨nofun, nofun⟩ ⟨nofun, nofun⟩ fun _ early => early, stored, parentHolds,
        childHolds, safe⟩
  | prepare =>
      obtain rfl := Option.some.inj stepped
      exact ⟨ParentAt.matches_move places ⟨nofun, nofun⟩ ⟨nofun, nofun⟩ fun _ early => early, stored, parentHolds,
        childHolds, safe⟩
  | lock =>
      rw [pthreadEntry, notLate nofun nofun] at stepped
      obtain ⟨free, made⟩ := Option.ite_none_right_eq_some.mp stepped
      obtain rfl := Option.some.inj made
      dsimp only at free
      have idle : parent.holds = false :=
        Bool.eq_false_iff.mpr fun held => nomatch free.symm.trans (parentHolds.mpr held)
      refine ⟨ParentAt.matches_move places ⟨nofun, nofun⟩ ⟨nofun, nofun⟩ ?_, stored, ?_, iff_of_true rfl rfl, safe⟩
      · rintro rfl
        exact nomatch idle
      · exact iff_of_false nofun (by rw [idle]; exact nofun)
  | store =>
      rw [pthreadEntry, notLate nofun nofun] at stepped
      obtain rfl := Option.some.inj stepped
      exact ⟨ParentAt.matches_move places ⟨nofun, nofun⟩ ⟨nofun, nofun⟩ (fun _ early => nomatch early), rfl, parentHolds,
        childHolds, safe⟩
  | unlock =>
      rw [pthreadEntry, notLate nofun nofun] at stepped
      obtain rfl := Option.some.inj stepped
      have owned : taMtx = some .child := childHolds.mpr rfl
      have idle : parent.holds = false :=
        Bool.eq_false_iff.mpr fun held => nomatch owned.symm.trans (parentHolds.mpr held)
      refine ⟨ParentAt.matches_move places ⟨nofun, nofun⟩ ⟨nofun, nofun⟩ (fun _ early => nomatch early), stored, ?_,
        iff_of_false nofun nofun, safe⟩
      exact iff_of_false nofun (by rw [idle]; exact nofun)
  | signal =>
      rw [pthreadEntry, notLate nofun nofun] at stepped
      obtain rfl := Option.some.inj stepped
      by_cases woken : parent = .waiting
      · rw [if_pos woken]
        exact ⟨rfl, stored, woken ▸ parentHolds, childHolds, safe⟩
      · rw [if_neg woken]
        refine ⟨?_, stored, parentHolds, childHolds, safe⟩
        cases parent with
        | condInit | mutexInit | create | relock | unlock | mutexDestroy | condDestroy | readTid =>
            exact nomatch places
        | lock => exact nofun
        | check => exact .inr rfl
        | waiting => exact absurd rfl woken
        | returned => exact places.elim (fun absent => nomatch absent.1) fun entered => nomatch entered.1

theorem HandoverInv.step (inv : HandoverInv tid state) {action : HandoverAction}
    (undisturbed : Undisturbed state action) (stepped : handoverStep tid state action = some next) :
    HandoverInv tid next := by
  cases action with
  | parent succeeds =>
      refine dunePthreadCreate_inv inv (fun locking signalling => ?_) stepped
      exact undisturbed.2 locking signalling succeeds rfl
  | child => exact pthreadEntry_inv inv stepped
  | wake => exact absurd rfl undisturbed.1

/-- A thread that waits for the mutex waits for one that holds it and goes on. -/
theorem HandoverInv.live (inv : HandoverInv tid state) (going : state.parent.hasReturned = false) :
    ∃ action, action ≠ .wake ∧ (handoverStep tid state action).isSome := by
  have notHolds := inv.not_holds
  obtain ⟨parent, child, taTid, taMtx, late⟩ := state
  obtain ⟨places, stored, parentHolds, childHolds, safe⟩ := inv
  dsimp only at places stored parentHolds childHolds safe notHolds going
  have free (idle : parent.holds = false) (childIdle : child.holds = false) : taMtx = none := by
    rcases taMtx with _ | _ | _
    · rfl
    · exact absurd (parentHolds.mp rfl) (by rw [idle]; exact nofun)
    · exact absurd (childHolds.mp rfl) (by rw [childIdle]; exact nofun)
  cases parent with
  | condInit | mutexInit | create | unlock | mutexDestroy | condDestroy | readTid =>
      exact ⟨.parent true, nofun, rfl⟩
  | check =>
      refine ⟨.parent true, nofun, ?_⟩
      simp only [handoverStep, dunePthreadCreate]
      split <;> rfl
  | lock =>
      cases held : child.holds with
      | false =>
          refine ⟨.parent true, nofun, ?_⟩
          rw [free rfl held]
          rfl
      | true =>
          refine ⟨.child, nofun, ?_⟩
          cases child <;> first | rfl | exact nomatch held
  | waiting =>
      refine ⟨.child, nofun, ?_⟩
      cases child with
      | absent => exact absurd rfl places.1
      | entered => exact absurd rfl places.2
      | lock =>
          rw [free rfl rfl]
          rfl
      | loadTf | prepare | store | unlock | signal => rfl
  | relock =>
      obtain rfl : child = .entered := places
      refine ⟨.parent true, nofun, ?_⟩
      rw [free rfl rfl]
      rfl
  | returned => exact nomatch going

theorem HandoverInv.handedOver (inv : HandoverInv tid state) : HandedOver tid state where
  answered := fun result returned created => by
    have places := inv.places
    have positive := tid.positive
    rw [returned] at places
    rcases places with ⟨absent, _⟩ | ⟨_, rfl⟩
    · exact absurd absent created
    · exact ⟨rfl, by omega⟩
  safe := inv.safe
  live := inv.live

/-- In a run without a spurious wake-up in which the parent does not slip in between the child's
unlock and its signal, the handover is safe. -/
theorem handover_undisturbed
    (reached : Machine.Reaches (handoverStep tid) Undisturbed handoverStart state) : HandedOver tid state :=
  HandoverInv.handedOver <| reached.invariant (HandoverInv tid) (handoverStart_inv tid)
    fun _ _ _ inv undisturbed stepped => inv.step undisturbed stepped

end Handover

def childTid : Tid := ⟨7, by decide⟩

def parentSteps (count : Nat) : List HandoverAction := List.replicate count (.parent true)

def childSteps (count : Nat) : List HandoverAction := List.replicate count .child

/-- The child starts once the parent waits. -/
theorem handover_undisturbed_waiting : ∃ state,
    Machine.Reaches (handoverStep childTid) Undisturbed handoverStart state ∧
      state = ⟨.returned 7, .entered, 7, none, false⟩ ∧ HandedOver childTid state := by
  have reached : Machine.Reaches (handoverStep childTid) Undisturbed handoverStart
      ⟨.returned 7, .entered, 7, none, false⟩ := by
    refine Machine.reaches_of_checkedRun
      (fun state action => action ≠ .wake && (state.parent ≠ .lock || state.child ≠ .signal))
      (parentSteps 5 ++ childSteps 6 ++ parentSteps 5) (fun state action allowed => ?_) (by decide)
    simp only [Bool.and_eq_true, Bool.or_eq_true, decide_eq_true_eq] at allowed
    exact ⟨allowed.1, fun locking signalling => (allowed.2.elim (absurd locking) (absurd signalling))⟩
  exact ⟨_, reached, rfl, handover_undisturbed reached⟩

/-- A spurious wake-up makes the parent return 0, and the child then takes the mutex. In another
run the parent returns between the child's unlock and its signal. -/
theorem woken_parent_returns_early : ∃ woken overtaken,
    Machine.Reaches (handoverStep childTid) (fun _ _ => True) handoverStart woken ∧
      Machine.Reaches (handoverStep childTid) (fun _ _ => True) handoverStart overtaken ∧
      woken.parent = .returned 0 ∧ ¬ HandedOver childTid woken ∧
      overtaken.parent = .returned 7 ∧ ¬ HandedOver childTid overtaken := by
  have wokenReached : Machine.Reaches (handoverStep childTid) (fun _ _ => True) handoverStart
      ⟨.returned 0, .store, 0, some .child, true⟩ :=
    Machine.reaches_of_checkedRun (fun _ _ => true) (parentSteps 5 ++ [.wake] ++ parentSteps 5 ++ childSteps 3)
      (fun _ _ _ => trivial) (by decide)
  have overtakenReached : Machine.Reaches (handoverStep childTid) (fun _ _ => True) handoverStart
      ⟨.returned 7, .entered, 7, none, true⟩ :=
    Machine.reaches_of_checkedRun (fun _ _ => true) (parentSteps 3 ++ childSteps 5 ++ parentSteps 6 ++ childSteps 1)
      (fun _ _ _ => trivial) (by decide)
  exact ⟨_, _, wokenReached, overtakenReached, rfl, (fun handed => nomatch handed.safe), rfl,
    fun handed => nomatch handed.safe⟩

end RdmaPaging
