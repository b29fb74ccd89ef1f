import RdmaPaging.SthreadDescriptors
import RdmaPaging.SthreadReadOnly
import RdmaPaging.SthreadRecycle

/-!
The assertion of `syscall_handler` that `st_walk` is not zero. The field counts pages in two walks,
and holds an address that the check of a buffer found; a check that finds none leaves zero.
-/

namespace RdmaPaging

open RunSteps

/-- The entry grants an sthread to write. -/
def grantsWrite (pte : Ptent) : Bool := pte.has pteU && pte.has pteP && pte.has pteW

/-- Some entry of the pages is checked before one is refused, and has an address that is not zero. -/
def ChecksNonzero (layout : DuneLayout) (table : PageTable) (pages : List Nat) : Prop :=
  ∃ before page after, pages = before ++ page :: after ∧
    (∀ other ∈ before, table other ≠ 0 → grantsWrite (table other) = true) ∧
    grantsWrite (table page) = true ∧ checkedAddr layout (table page) ≠ 0

/-! The walk of `has_mem_perm`. -/

section Check

variable {layout : DuneLayout} {table : PageTable} {base page first : Nat} {pages rest : List Nat}

theorem walkCheckPerm_eq (layout : DuneLayout) (va : Nat) (pte : Ptent) (walk : Nat) :
    walkCheckPerm layout va pte walk = if grantsWrite pte = true then
      (0, pte, if walk = 0 then checkedAddr layout pte else walk) else (1, pte, walk) := by
  unfold walkCheckPerm grantsWrite
  cases pte.has pteU <;> cases pte.has pteP <;> cases pte.has pteW <;> simp

theorem grantsWrite_zero : grantsWrite 0 = false := by decide

theorem grantsWrite_present {pte : Ptent} (grants : grantsWrite pte = true) : pte.has pteP = true := by
  unfold grantsWrite at grants
  simp only [Bool.and_eq_true] at grants
  exact grants.1.2

theorem set_same (table : PageTable) (page : Nat) : table.set page (table page) = table := by
  funext other
  rw [PageTable.set]
  split
  · rename_i same
    rw [same]
  · rfl

theorem checksNonzero_cons : ChecksNonzero layout table (first :: rest) ↔
    grantsWrite (table first) = true ∧ checkedAddr layout (table first) ≠ 0 ∨
      (table first ≠ 0 → grantsWrite (table first) = true) ∧ ChecksNonzero layout table rest := by
  constructor
  · rintro ⟨before, page, after, split, granted, grants, nonzero⟩
    cases before with
    | nil =>
        obtain ⟨rfl, rfl⟩ := List.cons.inj split
        exact Or.inl ⟨grants, nonzero⟩
    | cons other before =>
        obtain ⟨rfl, rfl⟩ := List.cons.inj split
        exact Or.inr ⟨granted first (by simp), before, page, after, rfl,
          fun other member => granted other (by simp [member]), grants, nonzero⟩
  · rintro (⟨grants, nonzero⟩ | ⟨here, before, page, after, rfl, granted, grants, nonzero⟩)
    · exact ⟨[], first, rest, rfl, by simp, grants, nonzero⟩
    · have granted := List.forall_mem_cons.mpr ⟨here, granted⟩
      exact ⟨first :: before, page, after, rfl, granted, grants, nonzero⟩

/-- What the check leaves: it changes no entry, accepts pages whose entries all grant, and finds the
first address that is not zero. -/
theorem checkPages (base : Nat) (pages : List Nat) (walk : Nat) (table : PageTable) :
    let after := walkPages (walkCheckPerm layout) base pages (walk, table)
    after.2.2 = table ∧
      (after.1 = 0 ↔ ∀ page ∈ pages, table page ≠ 0 → grantsWrite (table page) = true) ∧
      (walk ≠ 0 → after.2.1 = walk) ∧
      (walk = 0 → (after.2.1 ≠ 0 ↔ ChecksNonzero layout table pages)) := by
  induction pages generalizing walk with
  | nil => simp [walkPages, ChecksNonzero]
  | cons first rest ih =>
      simp only [walkPages]
      by_cases blank : table first = 0
      · rw [if_pos blank]
        obtain ⟨same, accepts, keeps, finds⟩ := ih walk
        refine ⟨same, ?_, keeps, ?_⟩
        · rw [accepts, List.forall_mem_cons]
          simp [blank]
        · intro zero
          have none : grantsWrite (table first) = false := by rw [blank, grantsWrite_zero]
          rw [finds zero, checksNonzero_cons, none]
          simp [blank]
      · rw [if_neg blank, walkCheckPerm_eq]
        by_cases grants : grantsWrite (table first) = true
        · rw [if_pos grants]
          simp only [if_true, set_same]
          obtain ⟨same, accepts, keeps, finds⟩ :=
            ih (if walk = 0 then checkedAddr layout (table first) else walk)
          refine ⟨same, ?_, ?_, ?_⟩
          · rw [accepts, List.forall_mem_cons]
            simp [grants]
          · intro live
            rw [if_neg live] at keeps ⊢
            exact keeps live
          · intro zero
            rw [if_pos zero] at keeps finds ⊢
            rw [checksNonzero_cons]
            by_cases found : checkedAddr layout (table first) = 0
            · rw [finds found]
              simp [grants, found]
            · rw [keeps found]
              simp [grants, found]
        · rw [if_neg grants]
          simp only [Int.one_ne_zero, if_false, set_same]
          refine ⟨trivial, iff_of_false (by decide) ?_, fun _ => trivial, fun zero => ?_⟩
          · intro all
            exact grants (all first (by simp) blank)
          · rw [checksNonzero_cons]
            refine iff_of_false (fun nonzero => nonzero zero) ?_
            rintro (⟨granted, _⟩ | ⟨granted, _⟩)
            · exact grants granted
            · exact grants (granted blank)

theorem hasMemPerm_live (w : Wedge) (s : Sthread PageTable) (ptr len : Nat) :
    (hasMemPerm w s ptr len).2 ≠ 0 ↔
      ChecksNonzero w.layout s.pgroot (pagesBetween ptr ((ptr + len) % 2 ^ 64)) :=
  (@checkPages w.layout _ _ 0 s.pgroot).2.2.2 rfl

end Check

/-! Walks that count pages. -/

section Counts

variable {σ : Type} {turn : Ptent → σ → Ptent × σ} {pages : List Nat} {page : Nat}

/-- A walk that adds to its counter at every entry ends above zero if an entry is not blank. -/
theorem walk_counts {count : σ → Nat} (adds : ∀ pte own, count own < count (turn pte own).2)
    (state : σ × PageTable) : count state.1 ≤ count (pages.foldl (pageTurn turn) state).1 ∧
      ((∃ page ∈ pages, state.2 page ≠ 0) → 0 < count (pages.foldl (pageTurn turn) state).1) := by
  induction pages generalizing state with
  | nil => simp
  | cons first rest ih =>
      obtain ⟨grows, positive⟩ := ih (pageTurn turn state first)
      rw [List.foldl_cons]
      by_cases blank : state.2 first = 0
      · have stays : pageTurn turn state first = state := if_pos blank
        rw [stays] at grows positive ⊢
        refine ⟨grows, ?_⟩
        rintro ⟨page, member, occupied⟩
        rcases List.mem_cons.mp member with rfl | inRest
        · exact absurd blank occupied
        · exact positive ⟨page, inRest, occupied⟩
      · have moves : (pageTurn turn state first).1 = (turn (state.2 first) state.1).2 := by
          rw [pageTurn, if_neg blank]
        have more := adds (state.2 first) state.1
        rw [← moves] at more
        exact ⟨by omega, fun _ => by omega⟩

/-- A walk that clears no present bit leaves present entries present. -/
theorem walk_present (keeps : ∀ pte own, pte.has pteP = true → (turn pte own).1.has pteP = true)
    (state : σ × PageTable) (present : (state.2 page).has pteP = true) :
    ((pages.foldl (pageTurn turn) state).2 page).has pteP = true := by
  induction pages generalizing state with
  | nil => exact present
  | cons first rest ih =>
      apply ih
      by_cases same : page = first
      · subst same
        unfold pageTurn
        split
        · exact present
        · simp only [PageTable.set, if_true]
          exact keeps _ _ present
      · rw [pageTurn_other state same]
        exact present

theorem refill_adds (dst : Nat) (source : HostMem → Nat → BitVec 8) (clean : Ptent → Ptent)
    (pte : Ptent) (own : Nat × HostMem) : own.1 < (refill dst source clean pte own).2.1 := by
  unfold refill
  split <;> simp

theorem refill_present {clean : Ptent → Ptent} (keeps : ∀ pte, (clean pte).has pteP = pte.has pteP)
    (dst : Nat) (source : HostMem → Nat → BitVec 8) (pte : Ptent) (own : Nat × HostMem)
    (present : pte.has pteP = true) : (refill dst source clean pte own).1.has pteP = true := by
  unfold refill
  split
  · exact (keeps pte).trans present
  · exact present

theorem cleaned_present (pte : Ptent) : (pte &&& ~~~ pteD).has pteP = pte.has pteP := by
  have apart : ~~~ pteD &&& pteP = pteP := by decide
  rw [Ptent.has, Ptent.has, BitVec.and_assoc, apart]

end Counts

/-! The counter of a new sthread and of a recycled one. -/

/-- The stack that `recycle` walks. -/
def stackPages (stack : Nat) : List Nat := pagesBetween stack (stack + stackSize - 4096)

/-- The sthread has passed a check or none yet, and its page table has a page of its stack. -/
structure Live (s : Sthread PageTable) : Prop where
  walk : s.walk ≠ 0
  stack : ∃ page ∈ stackPages s.stack, (s.pgroot page).has pteP = true

section Counters

variable {w : Wedge} {page : Nat}

theorem newSthread_present {id stack writable : Nat} {sc : Sc} (bound : page < 2 ^ 36)
    (present : (w.master page).has pteP = true) :
    ((w.newSthread id stack writable sc).pgroot page).has pteP = true := by
  simp only [Wedge.newSthread, remapTable_eq]
  apply walk_present fun _ _ _ => copyEntry_present _ _
  dsimp only
  rw [protectTable_apply bound, if_neg (present_nonzero present), protectEntry_present]
  exact present

/-- `create_new_sthread` over a writable segment that the master maps. -/
theorem newSthread_walks {id stack writable : Nat} {sc : Sc}
    (mapped : ∃ page ∈ writablePages w.segments, (w.master page).has pteP = true) :
    (w.newSthread id stack writable sc).walk ≠ 0 := by
  obtain ⟨page, listed, present⟩ := mapped
  have counts : ∀ (pte : Ptent) (walk : Nat),
      walk < (copyEntry w.layout writable walk, walk + 4096).2 := fun _ walk => by simp
  simp only [Wedge.newSthread, remapTable_eq]
  apply Nat.pos_iff_ne_zero.mp
  apply (@walk_counts Nat _ (writablePages w.segments) (fun walk => walk) counts _).2
  refine ⟨page, listed, ?_⟩
  dsimp only
  rw [protectTable_apply (writablePages_bound listed), if_neg (present_nonzero present)]
  apply present_nonzero
  rw [protectEntry_present]
  exact present

/-- The exit call leaves the number of bytes of the stack pages that have an entry. -/
theorem recycle_live {s : Sthread PageTable} (live : Live s) (mem : HostMem) : Live (recycle w s mem).1 := by
  obtain ⟨page, member, present⟩ := live.stack
  obtain ⟨middle, last, result, copied, blanked⟩ := recycle_turns w s mem
  have still : (middle.2 page).has pteP = true := by
    rw [← copied]
    exact walk_present (refill_present cleaned_present _ _) _ present
  have counted : 0 < last.1.1 := by
    rw [← blanked]
    apply (@walk_counts (Nat × HostMem) _ _ Prod.fst (refill_adds _ _ _) _).2
    exact ⟨page, member, present_nonzero still⟩
  have kept : (last.2 page).has pteP = true := by
    rw [← blanked]
    exact walk_present (refill_present (fun pte => by rw [id_eq]) _ _) _ still
  rw [result]
  exact ⟨Nat.pos_iff_ne_zero.mp counted, page, member, kept⟩

/-- A new sthread, over a writable segment and a stack that the master maps. -/
theorem newSthread_live {id stack writable : Nat} {sc : Sc}
    (segment : ∃ page ∈ writablePages w.segments, (w.master page).has pteP = true)
    (onStack : ∃ page ∈ stackPages stack, (w.master page).has pteP = true) :
    Live (w.newSthread id stack writable sc) := by
  obtain ⟨page, member, present⟩ := onStack
  exact ⟨newSthread_walks segment, page, member, newSthread_present (page_bound member) present⟩

end Counters

/-! Lives of an sthread. -/

/-- The call comes to the check of its buffer. -/
structure ReachesCheck (s : Sthread PageTable) (call : SthreadCall) (ptr len : Nat) : Prop where
  allowed : canDoSysAt call.tf.num s.cell = some true
  descriptor : ∀ perm, fdPermOf call.tf.num = some perm →
    hasFdPerm s.sc (call.tf.rdi.setWidth 32) perm = true
  buffer : bufferOf call.tf.num call.tf call.pathLen = some (ptr, len)

/-- A call of the sthread, an access that the processor records in an entry, and `sthread_create`
that takes the sthread again. -/
inductive LifeEvent
  | called (call : SthreadCall)
  | touched (page : Nat) (dirty : Bool)
  | reused (sc : Sc)

/-- One event, or `none` where it ends the process. -/
@[grind =] def lifeStep (w : Wedge) : Option (Sthread PageTable × HostMem) → LifeEvent →
    Option (Sthread PageTable × HostMem)
  | none, _ => none
  | some (s, mem), .called call =>
      match Sthread.syscallHandler w call.tf call.pathLen call.rc s mem with
      | (.died, _, _) => none
      | (_, s, mem) => some (s, mem)
  | some (s, mem), .touched page dirty =>
      if (s.pgroot page).has pteP then
        let bits := pteA ||| (if dirty then pteD else 0)
        some ({ s with pgroot := s.pgroot.set page (s.pgroot page ||| bits) }, mem)
      else some (s, mem)
  | some (s, mem), .reused sc => some ({ s with sc := sc, state := .running }, mem)

/-- The assertion holds where the call comes to it. -/
def LifeEvent.Asserts (s : Sthread PageTable) : LifeEvent → Prop
  | .called call => ∀ ptr len, ReachesCheck s call ptr len → s.walk ≠ 0
  | _ => True

/-- A buffer that is checked has an entry that permits access and has an address that is not zero,
before the first one that does not. -/
def LifeEvent.Kept (w : Wedge) (s : Sthread PageTable) : LifeEvent → Prop
  | .called call => ∀ ptr len, ReachesCheck s call ptr len →
      ChecksNonzero w.layout s.pgroot (pagesBetween ptr ((ptr + len) % 2 ^ 64))
  | _ => True

/-- Something holds of every event of a life, as long as the process lives. -/
def EachOfLife (w : Wedge) (s : Sthread PageTable) (mem : HostMem)
    (holds : Sthread PageTable → LifeEvent → Prop) (events : List LifeEvent) : Prop :=
  Each (lifeStep w) (some (s, mem))
    (fun state event => ∀ s mem, state = some (s, mem) → holds s event) events

section Lives

variable {w : Wedge} {s next : Sthread PageTable} {mem after_ : HostMem} {call : SthreadCall}

theorem has_added {pte flag : Ptent} (has : pte.has flag = true) (added : Ptent) :
    (pte ||| added).has flag = true := by
  rw [Ptent.has, decide_eq_true_eq] at has ⊢
  intro zero
  rw [BitVec.and_or_distrib_right] at zero
  exact has (BitVec.or_eq_zero_iff.mp zero).1

theorem Live.relabel (live : Live s) (ret : BitVec 64) (state : StState) (sc : Sc) :
    Live { s with ret := ret, state := state, sc := sc } := ⟨live.walk, live.stack⟩

theorem specialTreatment_exit {tf : DuneTf} (isExit : tf.num = 666) (rc : BitVec 32) (s : Sthread PageTable)
    (mem : HostMem) : (specialTreatment w tf rc s mem).2.1 =
      { (recycle w s mem).1 with ret := tf.rdi, state := .zombie } := by
  rw [specialTreatment, if_pos isExit]

/-- Any other call leaves the counter and the tables of the sthread. -/
theorem specialTreatment_other {tf : DuneTf} (notExit : tf.num ≠ 666) (rc : BitVec 32)
    (s : Sthread PageTable) (mem : HostMem) :
    ∃ sc, (specialTreatment w tf rc s mem).2.1 = { s with sc := sc } := by
  rw [specialTreatment, if_neg notExit]
  split
  · exact ⟨s.sc, rfl⟩
  · split
    · split
      · exact ⟨s.sc, rfl⟩
      · split
        · exact ⟨_, rfl⟩
        · exact ⟨s.sc, rfl⟩
    · exact ⟨s.sc, rfl⟩

theorem specialTreatment_live (tf : DuneTf) (rc : BitVec 32) (live : Live s) (mem : HostMem) :
    Live (specialTreatment w tf rc s mem).2.1 := by
  by_cases isExit : tf.num = 666
  · rw [specialTreatment_exit isExit]
    exact (recycle_live live mem).relabel _ _ _
  · obtain ⟨sc, same⟩ := specialTreatment_other isExit rc s mem
    rw [same]
    exact live.relabel _ _ _

/-- The handler ends, or comes to its special treatment, with `st_walk` as it was or as the check of
the buffer left it. -/
theorem syscallHandler_cases (w : Wedge) (s : Sthread PageTable) (call : SthreadCall) (mem : HostMem) :
    ∃ t, (t = s ∨
        ∃ ptr len, ReachesCheck s call ptr len ∧ t = { s with walk := (hasMemPerm w s ptr len).2 }) ∧
      ((∃ handled, Sthread.syscallHandler w call.tf call.pathLen call.rc s mem = (handled, t, mem)) ∨
        ∃ tf, Sthread.syscallHandler w call.tf call.pathLen call.rc s mem =
          specialTreatment w tf call.rc t mem) := by
  unfold Sthread.syscallHandler
  cases allowed : canDoSysAt call.tf.num s.cell with
  | none => exact ⟨s, Or.inl rfl, Or.inl ⟨.died, rfl⟩⟩
  | some may =>
      cases may with
      | false => exact ⟨s, Or.inl rfl, Or.inl ⟨_, rfl⟩⟩
      | true =>
          by_cases descriptor : (fdPermOf call.tf.num).all
              (fun perm => hasFdPerm s.sc (call.tf.rdi.setWidth 32) perm) = true
          · simp only [if_pos descriptor]
            cases buffer : bufferOf call.tf.num call.tf call.pathLen with
            | none => exact ⟨s, Or.inl rfl, Or.inr ⟨_, rfl⟩⟩
            | some range =>
                obtain ⟨ptr, len⟩ := range
                by_cases zero : s.walk = 0
                · simp only [if_pos zero]
                  exact ⟨s, Or.inl rfl, Or.inl ⟨_, rfl⟩⟩
                · have reaches : ReachesCheck s call ptr len :=
                    ⟨allowed, Option.all_eq_true _ _ |>.mp descriptor, buffer⟩
                  refine ⟨_, Or.inr ⟨ptr, len, reaches, rfl⟩, ?_⟩
                  simp only [if_neg zero]
                  split
                  · exact Or.inr ⟨_, rfl⟩
                  · exact Or.inl ⟨_, rfl⟩
          · simp only [if_neg descriptor]
            exact ⟨s, Or.inl rfl, Or.inl ⟨_, rfl⟩⟩

/-- A call that finds an address in its buffer, if it comes to the check. -/
theorem syscallHandler_live (live : Live s) (kept : LifeEvent.Kept w s (.called call)) (mem : HostMem) :
    Live (Sthread.syscallHandler w call.tf call.pathLen call.rc s mem).2.1 := by
  obtain ⟨t, state, outcome⟩ := syscallHandler_cases w s call mem
  have liveThen : Live t := by
    rcases state with rfl | ⟨ptr, len, reaches, rfl⟩
    · exact live
    · exact ⟨(hasMemPerm_live w s ptr len).mpr (kept ptr len reaches), live.stack⟩
  rcases outcome with ⟨handled, ends⟩ | ⟨tf, goesOn⟩
  · rw [ends]
    exact liveThen
  · rw [goesOn]
    exact specialTreatment_live _ _ liveThen mem

/-- One event of the kept kind. -/
theorem lifeStep_live {event : LifeEvent} (live : Live s) (kept : event.Kept w s) {mem then_ : HostMem}
    (stepped : lifeStep w (some (s, mem)) event = some (next, then_)) : Live next := by
  cases event with
  | called call =>
      have after_ := @syscallHandler_live w s call live kept mem
      rw [lifeStep] at stepped
      generalize Sthread.syscallHandler w call.tf call.pathLen call.rc s mem = outcome at after_ stepped
      obtain ⟨handled, t, left⟩ := outcome
      have same : t = next := by
        cases handled <;> simp_all
      exact same ▸ after_
  | touched page dirty =>
      rw [lifeStep] at stepped
      split at stepped
      · rename_i present
        obtain ⟨rfl, _⟩ := Prod.ext_iff.mp (Option.some.inj stepped)
        obtain ⟨other, member, there⟩ := live.stack
        refine ⟨live.walk, other, member, ?_⟩
        simp only [PageTable.set]
        split
        · rename_i here
          subst here
          exact has_added there _
        · exact there
      · obtain ⟨rfl, _⟩ := Prod.ext_iff.mp (Option.some.inj stepped)
        exact live
  | reused sc =>
      obtain ⟨rfl, _⟩ := Prod.ext_iff.mp (Option.some.inj stepped)
      exact ⟨live.walk, live.stack⟩

end Lives

/-- The sthread is live, or the process has ended. -/
def LifeKept (state : Option (Sthread PageTable × HostMem)) : Prop :=
  ∀ s mem, state = some (s, mem) → Live s

/-- The assertion holds at every call of a life in which each buffer that is checked has an address
for the check to find. -/
theorem walk_asserted (w : Wedge) (id stack writable : Nat) (sc : Sc) (mem : HostMem)
    (segment : ∃ page ∈ writablePages w.segments, (w.master page).has pteP = true)
    (onStack : ∃ page ∈ stackPages stack, (w.master page).has pteP = true) (events : List LifeEvent)
    (kept : EachOfLife w (w.newSthread id stack writable sc) mem (fun s event => event.Kept w s) events) :
    EachOfLife w (w.newSthread id stack writable sc) mem (fun s event => event.Asserts s) events := by
  intro before event initial s left reached
  have begins : LifeKept (some (w.newSthread id stack writable sc, mem)) := by
    rintro _ _ ⟨⟩
    exact newSthread_live segment onStack
  have earlier := kept.within ((List.prefix_append before [event]).trans initial)
  have live : LifeKept (after (lifeStep w) (some (w.newSthread id stack writable sc, mem)) before) := by
    refine earlier.invariant begins ?_
    rintro (_ | ⟨t, first⟩) event live kept next left stepped
    · exact absurd stepped (by simp [lifeStep])
    · exact lifeStep_live (live t first rfl) (kept t first rfl) stepped
  cases event with
  | called call => exact fun _ _ _ => (live s left reached).walk
  | touched page dirty => trivial
  | reused sc => trivial

/-! A refused call of the sthread of a fresh process. -/

def leakSthread : Sthread PageTable := leakWedge.newSthread 1 leakStack leakCopy leakContext

/-- A read into a page that the sthread may not access. -/
def refusedRead : SthreadCall := ⟨⟨0, 3, 0, 1, 0, 0⟩, 0, 0⟩

/-- A read into the data segment. -/
def allowedRead : SthreadCall := ⟨⟨0, 3, 0x601000, 1, 0, 0⟩, 0, 0⟩

theorem leakSthread_table : leakSthread.pgroot = leakWedge.freshTable leakSthread :=
  newSthread_pgroot leakWedge leakSthread 1 rfl

theorem leakSthread_refuses : hasMemPerm leakWedge leakSthread 0 1 = (false, 0) := by
  have unlisted : 0 ∉ writablePages leakWedge.segments := by
    rw [leakWedge_pages]
    decide
  have entry : leakSthread.pgroot 0 = pteDefFlags &&& ~~~ pteU := by
    rw [leakSthread_table, freshTable_other (by decide) unlisted]
    decide
  have pages : pagesBetween 0 ((0 + 1) % 2 ^ 64) = [0] := by decide
  have occupied : leakSthread.pgroot 0 ≠ 0 := by
    rw [entry]
    decide
  have checked : walkCheckPerm leakWedge.layout (0 / 2 ^ 48 * 2 ^ 48 + 0 * 4096)
      (pteDefFlags &&& ~~~ pteU) 0 = (1, pteDefFlags &&& ~~~ pteU, 0) := by decide
  simp only [hasMemPerm, tableWalk, pages, walkPages]
  rw [if_neg occupied, entry, checked]
  rfl

theorem leakSthread_walk : leakSthread.walk = 4096 := by
  rw [leakSthread, newSthread_walk leakWedge_ready, leakWedge_size]

theorem refusedRead_blocked (mem : HostMem) :
    lifeStep leakWedge (some (leakSthread, mem)) (.called refusedRead) =
      some ({ leakSthread with walk := 0 }, mem) := by
  have allowed : canDoSysAt refusedRead.tf.num leakSthread.cell = some true := rfl
  have descriptor : (fdPermOf refusedRead.tf.num).all
      (fun perm => hasFdPerm leakSthread.sc (refusedRead.tf.rdi.setWidth 32) perm) = true := by decide
  have buffer : bufferOf refusedRead.tf.num refusedRead.tf refusedRead.pathLen = some (0, 1) := by decide
  have live : leakSthread.walk ≠ 0 := by
    rw [leakSthread_walk]
    decide
  have handled : Sthread.syscallHandler leakWedge refusedRead.tf refusedRead.pathLen refusedRead.rc
      leakSthread mem = (.blocked refusedRead.tf.blocked, { leakSthread with walk := 0 }, mem) := by
    rw [Sthread.syscallHandler, allowed]
    simp only [if_pos descriptor, buffer, if_neg live, leakSthread_refuses, Bool.false_eq_true, if_false]
  rw [lifeStep, handled]

/-- The read that is refused leaves no address, and the next read comes to the assertion. -/
theorem refused_read_aborts : leakWedge.Ready ∧ Lodged leakWedge leakStack leakCopy ∧
    leakWedge.size = 4096 ∧ ¬ EachOfLife leakWedge leakSthread blankMem (fun s event => event.Asserts s)
      [.called refusedRead, .called allowedRead] := by
  refine ⟨leakWedge_ready, leakWedge_lodged, leakWedge_size, fun asserts => ?_⟩
  have reached : after (lifeStep leakWedge) (some (leakSthread, blankMem)) [.called refusedRead] =
      some ({ leakSthread with walk := 0 }, blankMem) := by
    rw [after, List.foldl_cons, List.foldl_nil, refusedRead_blocked]
  have second := asserts [.called refusedRead] (.called allowedRead) (List.prefix_refl _) _ _ reached
  refine second 0x601000 1 ⟨rfl, ?_, by decide⟩ rfl
  rintro perm isRead
  obtain rfl : protRead = perm := Option.some.inj isRead
  decide

theorem walk_asserted_read : EachOfLife leakWedge leakSthread blankMem
    (fun s event => event.Asserts s) [.called allowedRead] := by
  have segment : ∃ page ∈ writablePages leakWedge.segments, (leakWedge.master page).has pteP = true := by
    rw [leakWedge_pages]
    exact ⟨0x601, by simp, by decide⟩
  have onStack : ∃ page ∈ stackPages leakStack, (leakWedge.master page).has pteP = true :=
    ⟨0x7f0000100, by decide, by decide⟩
  refine walk_asserted leakWedge 1 leakStack leakCopy leakContext blankMem segment onStack _ ?_
  rw [EachOfLife, ← List.nil_append [LifeEvent.called allowedRead], each_snoc]
  refine ⟨each_nil, ?_⟩
  rintro s left ⟨⟩ ptr len reaches
  obtain ⟨rfl, rfl⟩ : 0x601000 = ptr ∧ 1 = len := Prod.ext_iff.mp (Option.some.inj reaches.buffer)
  have pages : pagesBetween 0x601000 ((0x601000 + 1) % 2 ^ 64) = [0x601] := by decide
  have entry : leakSthread.pgroot 0x601 = copyEntry leakWedge.layout leakCopy 0 := by
    rw [leakSthread_table]
    exact leak_entry rfl
  rw [pages]
  refine ⟨[], 0x601, [], rfl, by simp, ?_, ?_⟩
  · exact (congrArg grantsWrite entry).trans (by decide)
  · exact fun zero => absurd ((congrArg (checkedAddr _) entry).symm.trans zero) (by decide)

end RdmaPaging
