import RdmaPaging.PagerRuns

/-!
The pager with one thread, as `page.c` runs it: the order of touches is any, and the conditions of
the general runs but the first are met by the order of the thread's own steps.
-/

namespace RdmaPaging

open RadixTree

/-- Only the thread of `main` touches the region, each page first at its first byte, and the pool
keeps to its table. -/
@[grind =] def soloGuard (config : PagerConfig) (state : Pager) : PagerAction → Prop
  | .fault tid addr => tid = mainThread ∧ addr % pageSize = 0
  | .load tid _ | .store tid _ _ => tid = mainThread
  | .install tid => ∀ addr, state.faults tid = .locked addr →
      (vmLookup config.pgroot addr .normal state.vm).2.pool.numPages ≤ maxPages
  | _ => True

/-- No other thread is in the handler, and what it is about to map is not mapped. -/
structure SoloInv (config : PagerConfig) (state : Pager) : Prop where
  others : ∀ tid, tid ≠ mainThread → state.faults tid = .none
  unmapped : ∀ addr, state.faults mainThread = .taken addr ∨ state.faults mainThread = .locked addr →
    frameAt config state.vm addr = none
  out : state.next.isSome = true → ∀ tid, state.faults tid = .none

variable {config : PagerConfig} {start state next : Pager} {tid : Nat}

theorem SoloInv.thread (inv : SoloInv config state) (tid : Nat) (busy : state.faults tid ≠ .none) : tid = mainThread := by
  by_contra other
  exact busy (inv.others tid other)

/-- The thread's own order meets the conditions of the general runs. -/
theorem SoloInv.touchGuard (inv : SoloInv config state) {action : PagerAction}
    (allowed : soloGuard config state action) (enabled : pagerStep config state action = some next) :
    RdmaPaging.touchGuard config state action := by
  have apart : ∀ addr, state.faults mainThread = .none → ∀ tid other, state.faults tid = .installed other →
      other / pageSize ≠ addr / pageSize := by
    intro addr free tid other installed
    have isMain := inv.thread tid (by simp [installed])
    rw [isMain, free] at installed
    exact absurd installed (by simp)
  cases action with
  | fault tid addr => exact allowed.2
  | install tid =>
      intro addr locked
      obtain rfl := inv.thread tid (by simp [locked])
      exact ⟨inv.unmapped addr (Or.inr locked), allowed addr locked⟩
  | load tid addr | store tid addr value =>
      obtain rfl : tid = mainThread := allowed
      have free : state.faults mainThread = .none := by
        simp only [pagerStep] at enabled
        split at enabled
        · simp at enabled
        · simp only [stepTouch, Option.ite_none_right_eq_some] at enabled
          exact enabled.1.1
      exact apart addr free
  | _ => exact trivial

/-- A step that leaves the tables and the faults alone. -/
theorem SoloInv.same (inv : SoloInv config state) (vm : next.vm = state.vm)
    (faults : next.faults = state.faults)
    (out : next.next.isSome = true → state.next.isSome = true) : SoloInv config next := by
  refine ⟨?_, ?_, fun isOut => ?_⟩
  · rw [faults]
    exact inv.others
  · rw [faults, vm]
    exact inv.unmapped
  · rw [faults]
    exact inv.out (out isOut)

/-- The thread goes on in its handler. -/
theorem SoloInv.move {fault : Fault} {mutex : Option Nat} {handled : List Nat} {vm : Vm}
    {frames : PhysAddr → Buf pageSize} {client : Client pageSize} (inv : SoloInv config state)
    (here : state.next = none) (mine : tid = mainThread)
    (unmapped : ∀ addr, fault = .taken addr ∨ fault = .locked addr → frameAt config vm addr = none) :
    SoloInv config { state with
      client := client, vm := vm, frames := frames, syscallMtx := mutex
      faults := Function.update state.faults tid fault, handled := handled } := by
  subst mine
  refine ⟨fun other different => ?_, fun addr waits => ?_, fun isOut => ?_⟩
  · exact (Function.update_of_ne different _ _).trans (inv.others other different)
  · dsimp only at waits ⊢
    rw [Function.update_self] at waits
    exact unmapped addr waits
  · simp [here] at isOut

theorem SoloInv.keeps (inv : SoloInv config state) {action : PagerAction}
    (allowed : soloGuard config state action)
    (stepped : pagerStep config state action = some next) : SoloInv config next := by
  cases action with
  | writeWait =>
      simp only [pagerStep] at stepped
      split at stepped
      · simp only [stepMain, Option.ite_none_right_eq_some] at stepped
        obtain ⟨client, _, rfl⟩ := onClient_some stepped.2
        exact inv.same rfl rfl id
      · simp at stepped
  | writeCopy =>
      simp only [pagerStep] at stepped
      split at stepped
      · simp only [stepMain, Option.bind_eq_some_iff] at stepped
        obtain ⟨_, _, ran⟩ := stepped
        obtain ⟨client, _, rfl⟩ := onClient_some ran
        exact inv.same rfl rfl id
      · simp at stepped
  | writePost =>
      simp only [pagerStep] at stepped
      split at stepped
      · rename_i index here
        simp only [stepMain, Option.map_eq_some_iff] at stepped
        obtain ⟨_, ran, rfl⟩ := stepped
        obtain ⟨client, _, rfl⟩ := onClient_some ran
        exact inv.same rfl rfl fun _ => by simp [here]
      · simp at stepped
  | unmap =>
      simp only [pagerStep] at stepped
      split at stepped
      · rename_i index here
        simp only [stepMain, Option.ite_none_left_eq_some] at stepped
        obtain ⟨_, unmapped⟩ := stepped
        split at unmapped
        · obtain rfl := Option.some.inj unmapped
          have quiet := inv.out (by simp [here])
          exact ⟨inv.others, fun addr waits => by simp [quiet] at waits, fun _ => quiet⟩
        · simp at unmapped
      · simp at stepped
  | fault tid addr =>
      simp only [pagerStep] at stepped
      split at stepped
      · simp at stepped
      · rename_i here
        simp only [stepTouch, Option.ite_none_right_eq_some] at stepped
        obtain ⟨⟨_, _, unmapped⟩, rfl⟩ := stepped.imp_right Option.some.inj
        refine inv.move here allowed.1 fun touched waits => ?_
        obtain rfl : addr = touched := by simpa using waits
        exact unmapped
  | lock tid =>
      simp only [pagerStep] at stepped
      split at stepped
      · simp at stepped
      · rename_i here
        simp only [stepHandler] at stepped
        split at stepped
        · rename_i addr taken free
          obtain rfl := Option.some.inj stepped
          obtain rfl := inv.thread tid (by simp [taken])
          refine inv.move here rfl fun touched waits => ?_
          obtain rfl : addr = touched := by simpa using waits
          exact inv.unmapped addr (Or.inl taken)
        · simp at stepped
  | install tid =>
      simp only [pagerStep] at stepped
      split at stepped
      · simp at stepped
      · rename_i here
        simp only [stepHandler] at stepped
        split at stepped
        · rename_i addr locked
          split at stepped
          · obtain rfl := Option.some.inj stepped
            exact inv.move here (inv.thread tid (by simp [locked])) (by simp)
          · simp at stepped
        · simp at stepped
  | readPost tid | readWait tid =>
      simp only [pagerStep] at stepped
      split at stepped
      · simp at stepped
      · simp only [stepHandler] at stepped
        split at stepped
        · obtain ⟨client, _, rfl⟩ := onClient_some stepped
          exact inv.same rfl rfl id
        · simp at stepped
  | readCopy tid =>
      simp only [pagerStep] at stepped
      split at stepped
      · simp at stepped
      · rename_i here
        simp only [stepHandler] at stepped
        split at stepped
        · rename_i addr installed
          simp only [Option.bind_eq_some_iff, Option.map_eq_some_iff] at stepped
          obtain ⟨_, _, returned, ran, rfl⟩ := stepped
          obtain ⟨client, _, rfl⟩ := onClient_some ran
          exact inv.move here (inv.thread tid (by simp [installed])) (by simp)
        · simp at stepped
  | unlock tid =>
      simp only [pagerStep] at stepped
      split at stepped
      · simp at stepped
      · rename_i here
        simp only [stepHandler] at stepped
        split at stepped
        · rename_i addr isCopied
          obtain rfl := Option.some.inj stepped
          exact inv.move here (inv.thread tid (by simp [isCopied])) (by simp)
        · simp at stepped
  | load tid addr | store tid addr value =>
      simp only [pagerStep] at stepped
      split at stepped
      · simp at stepped
      · simp only [stepTouch, Option.ite_none_right_eq_some, Option.map_eq_some_iff] at stepped
        obtain ⟨_, _, _, rfl⟩ := stepped
        exact inv.same rfl rfl id
  | scribble frame bytes =>
      simp only [pagerStep, Option.ite_none_right_eq_some] at stepped
      obtain ⟨_, rfl⟩ := stepped.imp_right Option.some.inj
      exact inv.same rfl rfl id
  | background action =>
      simp only [pagerStep, Option.ite_none_right_eq_some] at stepped
      obtain ⟨client, _, rfl⟩ := onClient_some stepped.2
      exact inv.same rfl rfl id

/-- A run of one thread is one of the general runs. -/
theorem solo_touches (faults : ∀ tid, start.faults tid = .none)
    (run : Machine.Reaches (pagerStep config) (soloGuard config) start state) :
    Machine.Reaches (pagerStep config) (touchGuard config) start state := by
  have begun : SoloInv config start := ⟨fun tid _ => faults tid, fun addr waits => by simp [faults] at waits,
    fun _ => faults⟩
  refine (run.project id (SoloInv config) begun ?_ ?_).2
  · exact fun _ _ _ inv _ allowed stepped => inv.keeps allowed stepped
  · exact fun _ action _ inv allowed stepped => Or.inr ⟨action, inv.touchGuard allowed stepped, stepped⟩

/-- The memory is kept, and once every page has been touched and nothing stored, the region is what
it was before page-out. -/
structure RegionRestored (config : PagerConfig) (start state : Pager) : Prop
    extends MemoryKept config start state where
  whole : (∀ page < config.pageNr, page ∈ state.handled) → state.stores = [] →
    ∀ offset < pageLen config,
      loadByte config state (config.page + offset) = loadByte config start (config.page + offset)

/-- One thread that touches the pages in any order finds the region as it left it. -/
theorem one_thread_restores_region {physBits : Nat} {mm : MmStruct} (backed : Backed physBits mm config)
    (starts : PagerStarts config start)
    (run : Machine.Reaches (pagerStep config) (soloGuard config) start state) :
    RegionRestored config start state := by
  have kept := (pager_inv backed starts (solo_touches starts.faults run)).1.memoryKept backed
  refine ⟨kept, fun touched quiet offset inside => ?_⟩
  have split : offset / pageSize * pageSize + offset % pageSize = offset := Nat.div_add_mod' offset pageSize
  have page : offset / pageSize < config.pageNr := by
    unfold pageLen pageSize at *
    omega
  have bytes := kept.bytes _ (touched _ page) (offset % pageSize) (Nat.mod_lt _ (by decide))
  rw [pageAt, Nat.add_assoc, split, quiet] at bytes
  exact bytes

/-- A region of two pages at 4 MB, in one page of 2 MB, with a server for two pages. -/
def smallRegion : PagerConfig where
  layout := getLayout 39 usualMm
  pgroot := 0x1000#64
  page := 0x400000
  pageNr := 2

def smallRegionVm : Vm :=
  (vmMapPhys 0x1000#64 0x400000 0x200000 0x400000#64 (permR ||| permW ||| permBig) blankVm).2

def smallPager : Pager where
  client := readyClient ⟨0x5000, 0x2000, 7⟩ (fun _ => 0) (fun _ => 0) (fun _ => 0)
  vm := smallRegionVm
  frames := fun frame index => UInt8.ofNat (frame.toNat / 4096 + index)
  next := some 0
  syscallMtx := none
  faults := fun _ => .none
  handled := []
  stores := []
  loads := []

theorem smallRegion_backed : Backed 39 usualMm smallRegion where
  wide := by decide
  narrow := by decide
  layout := rfl
  aligned := by decide
  user := by decide
  valid := by decide

theorem smallPager_starts : PagerStarts smallRegion smallPager := by
  have run : (VmCall.mapPhys 0x400000 0x200000 0x400000#64 (permR ||| permW ||| permBig)).run 0x1000#64
      blankVm = smallRegionVm := by rw [VmCall.run, smallRegionVm]
  have unspoiled : ¬ spoiled smallRegionVm.pool := by
    unfold spoiled outgrown
    decide +kernel
  have reached : Reached 0x1000#64 smallRegionVm := by
    rw [← run] at unspoiled ⊢
    exact .step _ blankVm_reached (Or.inl (by decide)) unspoiled
  have grounded : Grounded entryBuilt [treeOf smallRegion.pgroot] smallPager.vm := by
    dsimp only [smallRegion, smallPager]
    exact reached.sound.grounded
  refine ⟨readyClient_ready _ _ _ _ (by decide), by decide, by decide, grounded, by decide +kernel,
    fun address above below => ?_, rfl, fun _ => rfl, rfl, rfl, rfl, rfl⟩
  have block : address / entrySpan 1 = 0x400000 / entrySpan 1 := by
    change 0x400000 ≤ address at above
    change address < 0x400000 + 2 * 4096 at below
    change address / 0x200000 = 2
    omega
  have bound : address < 2 ^ 48 := by
    change address < 0x400000 + 2 * 4096 at below
    omega
  have deep : 1 ≤ (leafOf smallRegionVm.mem 0x1000#64 0x400000).1 := by decide +kernel
  change pageIsFromPool _ (pteAddr (leafOf smallRegionVm.mem 0x1000#64 address).2) = false
  rw [leafOf_shared deep block (by decide) bound]
  decide +kernel

/-- One request through the NIC and the poller. -/
def requestSteps : List PagerAction :=
  [.background .nicExec, .background .nicComplete, .background .pollCq, .background .handleWc]

def touchSteps (addr : Nat) : List PagerAction :=
  [.fault 0 addr, .lock 0, .install 0, .readPost 0] ++ requestSteps ++ [.readWait 0, .readCopy 0, .unlock 0]

/-- Page-out, a touch of the second page, other bytes in a frame that is free, a touch of the
first page, a store and two loads. -/
def smallSteps : List PagerAction :=
  [.writeWait, .writeCopy, .writePost] ++ requestSteps ++ [.writeWait, .writeCopy, .writePost] ++
    requestSteps ++ [.unmap] ++ touchSteps 0x401000 ++
    [.scribble 0x400000#64 fun _ => 9] ++ touchSteps 0x400000 ++
    [.load 0 0x400007, .store 0 0x401003 77, .load 0 0x401003]

@[grind =] def soloAllowed (config : PagerConfig) (state : Pager) : PagerAction → Bool
  | .fault tid addr => tid = mainThread && addr % pageSize = 0
  | .load tid _ | .store tid _ _ => tid = mainThread
  | .install tid =>
      match state.faults tid with
      | .locked addr => (vmLookup config.pgroot addr .normal state.vm).2.pool.numPages ≤ maxPages
      | _ => true
  | _ => true

theorem soloAllowed_guard {action : PagerAction} (allowed : soloAllowed config state action = true) :
    soloGuard config state action := by
  cases action with
  | fault tid addr => simpa [soloAllowed, soloGuard] using allowed
  | load tid addr | store tid addr value => simpa [soloAllowed, soloGuard] using allowed
  | install tid =>
      intro addr locked
      simpa [soloAllowed, locked] using allowed
  | _ => exact trivial

theorem smallSteps_run : ∃ state,
    Machine.checkedRun (pagerStep smallRegion) (soloAllowed smallRegion) smallPager smallSteps = some state :=
  Option.isSome_iff_exists.mp (by decide +kernel)

theorem smallSteps_solo : ∃ state,
    Machine.checkedRun (pagerStep smallRegion) (soloAllowed smallRegion) smallPager smallSteps = some state ∧
      Machine.Reaches (pagerStep smallRegion) (soloGuard smallRegion) smallPager state := by
  obtain ⟨state, ran⟩ := smallSteps_run
  exact ⟨state, ran, Machine.reaches_of_checkedRun (soloAllowed smallRegion) smallSteps
    (fun _ _ => soloAllowed_guard) ran⟩

theorem one_thread_restores_region_small : ∃ state,
    state.handled = [0, 1] ∧ state.loads.map PageLoad.value = [77, UInt8.ofNat (0x400 + 7)] ∧
      RegionRestored smallRegion smallPager state := by
  obtain ⟨state, ran, run⟩ := smallSteps_solo
  have ends : (Machine.checkedRun (pagerStep smallRegion) (soloAllowed smallRegion) smallPager
      smallSteps).map (fun state => (state.handled, state.loads.map PageLoad.value)) =
        some ([0, 1], [77, UInt8.ofNat (0x400 + 7)]) := by decide +kernel
  rw [ran, Option.map_some, Option.some.injEq, Prod.mk.injEq] at ends
  exact ⟨state, ends.1, ends.2, one_thread_restores_region smallRegion_backed smallPager_starts run⟩

theorem paging_keeps_memory_small : ∃ state,
    state.handled = [0, 1] ∧ MemoryKept smallRegion smallPager state := by
  obtain ⟨state, ran, run⟩ := smallSteps_solo
  have ends : (Machine.checkedRun (pagerStep smallRegion) (soloAllowed smallRegion) smallPager
      smallSteps).map Pager.handled = some [0, 1] := by decide +kernel
  rw [ran, Option.map_some, Option.some.injEq] at ends
  exact ⟨state, ends, paging_keeps_memory smallRegion_backed smallPager_starts
    (solo_touches smallPager_starts.faults run)⟩

end RdmaPaging
