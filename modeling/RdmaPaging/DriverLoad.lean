import Mathlib.Data.List.Count
import Mathlib.Data.List.Nodup
import Mathlib.Logic.Function.Basic

/-!
Loading the driver: `dune_init`, with `vmx_init`, and what a load that fails undoes.
-/

namespace RdmaPaging

open Function (update)

abbrev CpuId := Nat

/-- The pages that a load takes: the MSR bitmap, and for each CPU the area for VMXON. -/
inductive LoadPage
  | msrBitmap
  | area (cpu : CpuId)
  deriving DecidableEq

/-- The CPUs, and how the kernel answers the calls of a load. A CPU whose CR4.VMXE is set
already is busy, and `misc_register` returns 0 or an error. -/
structure LoadHost where
  possible : List CpuId
  online : List CpuId
  distinct : possible.Nodup
  cpuHasVmx : Bool
  setupVmcsConfig : Int
  cpuHasVmxVpid : Bool
  cpuHasVmxEpt : Bool
  hasLoadEfer : Bool
  msrBitmapPage : Bool
  areaPage : CpuId → Bool
  timedOut : Bool
  miscRegister : Int

/-- The variables of the driver and the state of each CPU, with the pages taken and given
back so far. -/
structure DriverState where
  perfGuestCbs : Bool
  msrBitmap : Option LoadPage
  vmxarea : CpuId → Option LoadPage
  vmxEnabled : CpuId → Bool
  vmxEnableFailed : Nat
  vmxe : CpuId → Bool
  vmxOn : CpuId → Bool
  taken : List LoadPage
  freed : List LoadPage

/-- The module has just been put into memory. -/
def DriverState.unloaded (vmxe vmxOn : CpuId → Bool) : DriverState where
  perfGuestCbs := false
  msrBitmap := none
  vmxarea := fun _ => none
  vmxEnabled := fun _ => false
  vmxEnableFailed := 0
  vmxe := vmxe
  vmxOn := vmxOn
  taken := []
  freed := []

def loadEio : Int := 5
def loadEnomem : Int := 12
def loadEbusy : Int := 16

def DriverState.free (page : LoadPage) (driver : DriverState) : DriverState :=
  { driver with freed := page :: driver.freed }

/-- `vmx_enable` on one CPU. -/
def vmxEnable (driver : DriverState) (cpu : CpuId) : DriverState :=
  if driver.vmxe cpu then { driver with vmxEnableFailed := driver.vmxEnableFailed + 1 }
  else
    { driver with
      vmxe := update driver.vmxe cpu true
      vmxOn := update driver.vmxOn cpu true
      vmxEnabled := update driver.vmxEnabled cpu true }

def vmxDisable (driver : DriverState) (cpu : CpuId) : DriverState :=
  if driver.vmxEnabled cpu then
    { driver with
      vmxOn := update driver.vmxOn cpu false
      vmxe := update driver.vmxe cpu false
      vmxEnabled := update driver.vmxEnabled cpu false }
  else driver

def onEachCpu (host : LoadHost) (work : DriverState → CpuId → DriverState) (driver : DriverState) :
    DriverState :=
  host.online.foldl work driver

def freeVmxonArea (driver : DriverState) (cpu : CpuId) : DriverState :=
  match driver.vmxarea cpu with
  | none => driver
  | some page => { driver.free page with vmxarea := update driver.vmxarea cpu none }

def vmxFreeVmxonAreas (host : LoadHost) (driver : DriverState) : DriverState :=
  host.possible.foldl freeVmxonArea driver

/-- The loop of `vmx_init` over the possible CPUs: whether it had an area for each. -/
@[grind =] def allocVmxonAreas (host : LoadHost) : List CpuId → DriverState → Bool × DriverState
  | [], driver => (true, driver)
  | cpu :: rest, driver =>
      if host.areaPage cpu then
        allocVmxonAreas host rest { driver with
          taken := .area cpu :: driver.taken
          vmxarea := update driver.vmxarea cpu (some (.area cpu)) }
      else (false, driver)

def DriverState.takeBitmap (driver : DriverState) : DriverState :=
  { driver with msrBitmap := some .msrBitmap, taken := .msrBitmap :: driver.taken }

/-- `vmx_init` once it has the MSR bitmap. -/
def vmxInitCpus (host : LoadHost) (driver : DriverState) : Int × DriverState :=
  match allocVmxonAreas host host.possible driver with
  | (false, driver) => (-loadEnomem, vmxFreeVmxonAreas host driver)
  | (true, driver) =>
      let driver := onEachCpu host vmxEnable { driver with vmxEnableFailed := 0 }
      if host.timedOut then (-loadEio, vmxFreeVmxonAreas host driver)
      else if driver.vmxEnableFailed ≠ 0 then
        (-loadEbusy, vmxFreeVmxonAreas host (onEachCpu host vmxDisable driver))
      else (0, driver)

def vmxInit (host : LoadHost) (driver : DriverState) : Int × DriverState :=
  if ¬ host.cpuHasVmx then (-loadEio, driver)
  else if host.setupVmcsConfig < 0 then (-loadEio, driver)
  else if ¬ host.cpuHasVmxVpid then (-loadEio, driver)
  else if ¬ host.cpuHasVmxEpt then (-loadEio, driver)
  else if ¬ host.hasLoadEfer then (-loadEio, driver)
  else if ¬ host.msrBitmapPage then (-loadEnomem, driver)
  else vmxInitCpus host driver.takeBitmap

def vmxExit (host : LoadHost) (driver : DriverState) : DriverState :=
  let driver := vmxFreeVmxonAreas host (onEachCpu host vmxDisable driver)
  match driver.msrBitmap with
  | none => driver
  | some page => driver.free page

def duneInit (host : LoadHost) (driver : DriverState) : Int × DriverState :=
  match vmxInit host { driver with perfGuestCbs := true } with
  | (ret, driver) =>
      if ret ≠ 0 then (ret, driver)
      else if host.miscRegister ≠ 0 then (host.miscRegister, vmxExit host driver)
      else (0, driver)

/-! What a failed load should leave. -/

/-- The page was taken once and given back once, or never taken. -/
@[grind =] def FreedOnce (driver : DriverState) (page : LoadPage) : Prop :=
  driver.taken.count page ≤ 1 ∧ driver.freed.count page = driver.taken.count page

/-- VMX is on only where it was on before the load. -/
def VmxRestored (vmxOn : CpuId → Bool) (driver : DriverState) : Prop :=
  ∀ cpu, driver.vmxOn cpu = true → vmxOn cpu = true

structure LoadUndone (vmxOn : CpuId → Bool) (driver : DriverState) : Prop where
  callbacks : driver.perfGuestCbs = false
  vmx : VmxRestored vmxOn driver
  bitmap : FreedOnce driver .msrBitmap
  areas : ∀ cpu, FreedOnce driver (.area cpu)

/-- The state of a load on its way. `vmxOn` says where VMX was on before it, and `bitmap`
whether it has the MSR bitmap. -/
structure LoadInv (host : LoadHost) (vmxOn : CpuId → Bool) (bitmap : Bool) (driver : DriverState) :
    Prop where
  callbacks : driver.perfGuestCbs = true
  pointer : driver.msrBitmap = if bitmap then some .msrBitmap else none
  bitmapTaken : driver.taken.count .msrBitmap = if bitmap then 1 else 0
  bitmapFreed : driver.freed.count .msrBitmap = 0
  held : ∀ cpu page, driver.vmxarea cpu = some page → cpu ∈ host.possible ∧ page = .area cpu ∧
    driver.taken.count page = 1 ∧ driver.freed.count page = 0
  settled : ∀ cpu, driver.vmxarea cpu = none → FreedOnce driver (.area cpu)
  tracked : ∀ cpu, driver.vmxOn cpu = true → vmxOn cpu = true ∨ driver.vmxEnabled cpu = true
  enabled : ∀ cpu, driver.vmxEnabled cpu = true → cpu ∈ host.online

section Load

variable {host : LoadHost} {vmxOn : CpuId → Bool} {bitmap : Bool} {driver : DriverState}

theorem LoadInv.start (vmxe : CpuId → Bool) :
    LoadInv host vmxOn false { DriverState.unloaded vmxe vmxOn with perfGuestCbs := true } where
  callbacks := rfl
  pointer := rfl
  bitmapTaken := rfl
  bitmapFreed := rfl
  held := fun _ _ held => nomatch held
  settled := fun _ _ => ⟨Nat.zero_le 1, rfl⟩
  tracked := fun _ on => .inl on
  enabled := fun _ enabled => nomatch enabled

theorem LoadInv.takeBitmap (inv : LoadInv host vmxOn false driver) :
    LoadInv host vmxOn true driver.takeBitmap := by
  have other (cpu : CpuId) : (LoadPage.msrBitmap :: driver.taken).count (.area cpu) =
      driver.taken.count (.area cpu) := List.count_cons_of_ne (by simp)
  refine ⟨inv.callbacks, rfl, ?_, inv.bitmapFreed, ?_, ?_, inv.tracked, inv.enabled⟩
  · rw [DriverState.takeBitmap, List.count_cons_self, inv.bitmapTaken]
    rfl
  · rintro cpu page held
    obtain ⟨inside, rfl, taken, freed⟩ := inv.held cpu page held
    exact ⟨inside, rfl, (other cpu).trans taken, freed⟩
  · intro cpu empty
    simpa only [FreedOnce, DriverState.takeBitmap, other] using inv.settled cpu empty

theorem count_other_area {cpu other : CpuId} (ne : other ≠ cpu) (pages : List LoadPage) :
    (LoadPage.area cpu :: pages).count (.area other) = pages.count (.area other) :=
  List.count_cons_of_ne fun same => ne (LoadPage.area.inj same).symm

theorem LoadInv.takeArea {cpu : CpuId} (inv : LoadInv host vmxOn bitmap driver)
    (inside : cpu ∈ host.possible) (empty : driver.vmxarea cpu = none)
    (fresh : driver.taken.count (.area cpu) = 0) :
    LoadInv host vmxOn bitmap { driver with
      taken := .area cpu :: driver.taken
      vmxarea := update driver.vmxarea cpu (some (.area cpu)) } := by
  refine ⟨inv.callbacks, inv.pointer, ?_, inv.bitmapFreed, ?_, ?_, inv.tracked, inv.enabled⟩
  · exact (List.count_cons_of_ne (by simp)).trans inv.bitmapTaken
  · intro other page held
    dsimp only at held
    by_cases same : other = cpu
    · subst same
      rw [Function.update_self] at held
      obtain rfl := Option.some.inj held
      refine ⟨inside, rfl, ?_, ?_⟩
      · rw [List.count_cons_self, fresh]
      · rw [(inv.settled other empty).2, fresh]
    · rw [Function.update_of_ne same] at held
      obtain ⟨inside, rfl, taken, freed⟩ := inv.held other page held
      exact ⟨inside, rfl, (count_other_area same _).trans taken, freed⟩
  · intro other empty
    dsimp only at empty
    by_cases same : other = cpu
    · subst same
      rw [Function.update_self] at empty
      exact nomatch empty
    · rw [Function.update_of_ne same] at empty
      simpa only [FreedOnce, count_other_area same] using inv.settled other empty

/-- VMX is turned on or off on one CPU, and the driver notes it. -/
theorem LoadInv.switch (inv : LoadInv host vmxOn bitmap driver) {cpu : CpuId} (on : Bool)
    (online : on = true → cpu ∈ host.online) :
    LoadInv host vmxOn bitmap { driver with
      vmxe := update driver.vmxe cpu on
      vmxOn := update driver.vmxOn cpu on
      vmxEnabled := update driver.vmxEnabled cpu on } := by
  refine ⟨inv.callbacks, inv.pointer, inv.bitmapTaken, inv.bitmapFreed, inv.held, inv.settled, ?_, ?_⟩
  · intro other
    by_cases same : other = cpu
    · subst same
      simp only [Function.update_self]
      exact .inr
    · simpa [same] using inv.tracked other
  · intro other
    by_cases same : other = cpu
    · subst same
      simpa using online
    · simpa [same] using inv.enabled other

theorem LoadInv.enable (inv : LoadInv host vmxOn bitmap driver) {cpu : CpuId} (online : cpu ∈ host.online) :
    LoadInv host vmxOn bitmap (vmxEnable driver cpu) := by
  rw [vmxEnable]
  split
  · exact ⟨inv.callbacks, inv.pointer, inv.bitmapTaken, inv.bitmapFreed, inv.held, inv.settled,
      inv.tracked, inv.enabled⟩
  · exact inv.switch true fun _ => online

theorem LoadInv.disable (inv : LoadInv host vmxOn bitmap driver) (cpu : CpuId) :
    LoadInv host vmxOn bitmap (vmxDisable driver cpu) := by
  rw [vmxDisable]
  split
  · exact inv.switch false nofun
  · exact inv

theorem LoadInv.freeArea (inv : LoadInv host vmxOn bitmap driver) (cpu : CpuId) :
    LoadInv host vmxOn bitmap (freeVmxonArea driver cpu) := by
  rw [freeVmxonArea]
  rcases area : driver.vmxarea cpu with _ | page
  · exact inv
  obtain ⟨inside, rfl, taken, freed⟩ := inv.held cpu page area
  refine ⟨inv.callbacks, inv.pointer, inv.bitmapTaken, ?_, ?_, ?_, inv.tracked, inv.enabled⟩
  · exact (List.count_cons_of_ne (by simp)).trans inv.bitmapFreed
  · intro other page held
    dsimp only [DriverState.free] at held
    by_cases same : other = cpu
    · rw [same, Function.update_self] at held
      exact nomatch held
    · rw [Function.update_of_ne same] at held
      obtain ⟨inside, rfl, taken, freed⟩ := inv.held other page held
      exact ⟨inside, rfl, taken, (count_other_area same _).trans freed⟩
  · intro other empty
    dsimp only [DriverState.free] at empty
    by_cases same : other = cpu
    · subst same
      refine ⟨Nat.le_of_eq taken, ?_⟩
      simp only [DriverState.free, List.count_cons_self, freed, taken]
    · rw [Function.update_of_ne same] at empty
      simpa only [FreedOnce, DriverState.free, count_other_area same] using inv.settled other empty

theorem LoadInv.enableAll (inv : LoadInv host vmxOn bitmap driver) :
    LoadInv host vmxOn bitmap (onEachCpu host vmxEnable driver) :=
  List.foldlRecOn host.online vmxEnable inv fun _ kept _ online => kept.enable online

theorem LoadInv.disableAll (inv : LoadInv host vmxOn bitmap driver) :
    LoadInv host vmxOn bitmap (onEachCpu host vmxDisable driver) :=
  List.foldlRecOn host.online vmxDisable inv fun _ kept cpu _ => kept.disable cpu

theorem LoadInv.freeAll (inv : LoadInv host vmxOn bitmap driver) :
    LoadInv host vmxOn bitmap (vmxFreeVmxonAreas host driver) :=
  List.foldlRecOn host.possible freeVmxonArea inv fun _ kept cpu _ => kept.freeArea cpu

theorem LoadInv.counted (inv : LoadInv host vmxOn bitmap driver) :
    LoadInv host vmxOn bitmap { driver with vmxEnableFailed := 0 } :=
  ⟨inv.callbacks, inv.pointer, inv.bitmapTaken, inv.bitmapFreed, inv.held, inv.settled,
    inv.tracked, inv.enabled⟩

theorem LoadInv.allocAll (cpus : List CpuId) (distinct : cpus.Nodup) (inv : LoadInv host vmxOn bitmap driver)
    (inside : ∀ cpu ∈ cpus, cpu ∈ host.possible)
    (fresh : ∀ cpu ∈ cpus, driver.vmxarea cpu = none ∧ driver.taken.count (.area cpu) = 0) :
    LoadInv host vmxOn bitmap (allocVmxonAreas host cpus driver).2 := by
  induction cpus generalizing driver with
  | nil => exact inv
  | cons cpu rest ih =>
      rw [allocVmxonAreas]
      split
      · obtain ⟨absent, distinct⟩ := List.nodup_cons.mp distinct
        have first := fresh cpu List.mem_cons_self
        refine ih distinct (inv.takeArea (inside cpu List.mem_cons_self) first.1 first.2)
          (fun other later => inside other (List.mem_cons_of_mem _ later)) fun other later => ?_
        have ne : other ≠ cpu := fun same => absent (same ▸ later)
        have next := fresh other (List.mem_cons_of_mem _ later)
        refine ⟨(Function.update_of_ne ne _ _).trans next.1, ?_⟩
        exact (count_other_area ne _).trans next.2
      · exact inv

theorem disabled_rest (cpus : List CpuId) {cpu : CpuId}
    (enabled : (cpus.foldl vmxDisable driver).vmxEnabled cpu = true) :
    cpu ∉ cpus ∧ driver.vmxEnabled cpu = true := by
  induction cpus generalizing driver with
  | nil => exact ⟨List.not_mem_nil, enabled⟩
  | cons first rest ih =>
      obtain ⟨outside, still⟩ := ih enabled
      rw [vmxDisable] at still
      split at still
      · by_cases same : cpu = first
        · simp [same] at still
        · exact ⟨List.not_mem_cons_of_ne_of_not_mem same outside, by simpa [same] using still⟩
      · rename_i idle
        refine ⟨List.not_mem_cons_of_ne_of_not_mem ?_ outside, still⟩
        exact fun same => idle (same ▸ still)

theorem freed_rest (cpus : List CpuId) {cpu : CpuId} {page : LoadPage}
    (held : (cpus.foldl freeVmxonArea driver).vmxarea cpu = some page) :
    cpu ∉ cpus ∧ driver.vmxarea cpu = some page := by
  induction cpus generalizing driver with
  | nil => exact ⟨List.not_mem_nil, held⟩
  | cons first rest ih =>
      obtain ⟨outside, still⟩ := ih held
      rw [freeVmxonArea] at still
      rcases area : driver.vmxarea first with _ | own
      · rw [area] at still
        refine ⟨List.not_mem_cons_of_ne_of_not_mem ?_ outside, still⟩
        rintro rfl
        exact nomatch area.symm.trans still
      · rw [area] at still
        by_cases same : cpu = first
        · simp [same] at still
        · exact ⟨List.not_mem_cons_of_ne_of_not_mem same outside,
            by simpa [same, DriverState.free] using still⟩

theorem freeAll_enabled : (vmxFreeVmxonAreas host driver).vmxEnabled = driver.vmxEnabled := by
  refine List.foldlRecOn host.possible freeVmxonArea (motive := fun next => next.vmxEnabled = driver.vmxEnabled)
    rfl fun next same cpu _ => ?_
  rw [freeVmxonArea, ← same]
  split <;> rfl

theorem allocAll_enabled (cpus : List CpuId) :
    (allocVmxonAreas host cpus driver).2.vmxEnabled = driver.vmxEnabled := by
  induction cpus generalizing driver with
  | nil => rfl
  | cons cpu rest ih =>
      rw [allocVmxonAreas]
      split
      · exact ih
      · rfl

/-- What a load that fails leaves, whether it has taken the MSR bitmap or not. -/
structure LoadEnded (vmxOn : CpuId → Bool) (bitmap : Bool) (driver : DriverState) : Prop where
  callbacks : driver.perfGuestCbs = true
  vmx : VmxRestored vmxOn driver
  areas : ∀ cpu, FreedOnce driver (.area cpu)
  pointer : driver.msrBitmap = if bitmap then some .msrBitmap else none
  taken : driver.taken.count .msrBitmap = if bitmap then 1 else 0
  freed : driver.freed.count .msrBitmap = 0

theorem LoadInv.ended (inv : LoadInv host vmxOn bitmap driver)
    (idle : ∀ cpu, driver.vmxEnabled cpu = false) (empty : ∀ cpu, driver.vmxarea cpu = none) :
    LoadEnded vmxOn bitmap driver where
  callbacks := inv.callbacks
  vmx := fun cpu on => (inv.tracked cpu on).resolve_right fun enabled =>
    nomatch (idle cpu).symm.trans enabled
  areas := fun cpu => inv.settled cpu (empty cpu)
  pointer := inv.pointer
  taken := inv.bitmapTaken
  freed := inv.bitmapFreed

theorem LoadInv.released (inv : LoadInv host vmxOn bitmap driver)
    (idle : ∀ cpu, driver.vmxEnabled cpu = false) :
    LoadEnded vmxOn bitmap (vmxFreeVmxonAreas host driver) := by
  refine inv.freeAll.ended (fun cpu => ?_) fun cpu => ?_
  · rw [freeAll_enabled]
    exact idle cpu
  · refine Option.eq_none_iff_forall_ne_some.mpr fun page held => ?_
    obtain ⟨outside, still⟩ := freed_rest host.possible held
    exact outside (inv.held cpu page still).1

theorem LoadInv.disabled (inv : LoadInv host vmxOn bitmap driver) (cpu : CpuId) :
    (onEachCpu host vmxDisable driver).vmxEnabled cpu = false := by
  refine Bool.eq_false_iff.mpr fun enabled => ?_
  obtain ⟨outside, still⟩ := disabled_rest host.online enabled
  exact outside (inv.enabled cpu still)

theorem vmxInitCpus_cases (inv : LoadInv host vmxOn bitmap driver)
    (idle : ∀ cpu, driver.vmxEnabled cpu = false)
    (fresh : ∀ cpu, driver.vmxarea cpu = none ∧ driver.taken.count (.area cpu) = 0)
    (answered : host.timedOut = false) :
    ((vmxInitCpus host driver).1 ≠ 0 ∧ LoadEnded vmxOn bitmap (vmxInitCpus host driver).2) ∨
      ((vmxInitCpus host driver).1 = 0 ∧ LoadInv host vmxOn bitmap (vmxInitCpus host driver).2) := by
  have allocated := inv.allocAll host.possible host.distinct (fun _ => id) fun cpu _ => fresh cpu
  have quiet : (allocVmxonAreas host host.possible driver).2.vmxEnabled = driver.vmxEnabled :=
    allocAll_enabled host.possible
  rw [vmxInitCpus]
  rcases areas : allocVmxonAreas host host.possible driver with ⟨enough, next⟩
  rw [areas] at allocated quiet
  cases enough with
  | false =>
      have enomem : -loadEnomem ≠ 0 := by decide
      refine .inl ⟨enomem, allocated.released fun cpu => ?_⟩
      exact (congrFun quiet cpu).trans (idle cpu)
  | true =>
      have enabled := allocated.counted.enableAll
      simp only [answered, Bool.false_eq_true, if_false]
      split
      · have ebusy : -loadEbusy ≠ 0 := by decide
        exact .inl ⟨ebusy, enabled.disableAll.released enabled.disabled⟩
      · exact .inr ⟨rfl, enabled⟩

/-- `vmx_init` from the start of a load: it fails with nothing but the MSR bitmap left to
give back, or has everything. -/
theorem vmxInit_cases (inv : LoadInv host vmxOn false driver)
    (idle : ∀ cpu, driver.vmxEnabled cpu = false)
    (fresh : ∀ cpu, driver.vmxarea cpu = none ∧ driver.taken.count (.area cpu) = 0)
    (answered : host.timedOut = false) :
    ((vmxInit host driver).1 ≠ 0 ∧ ∃ bitmap, LoadEnded vmxOn bitmap (vmxInit host driver).2) ∨
      ((vmxInit host driver).1 = 0 ∧ LoadInv host vmxOn true (vmxInit host driver).2) := by
  have unchanged : LoadEnded vmxOn false driver := inv.ended idle fun cpu => (fresh cpu).1
  have refused (error : Int) (nonzero : error ≠ 0) :
      (error ≠ 0 ∧ ∃ bitmap, LoadEnded vmxOn bitmap driver) ∨ (error = 0 ∧ LoadInv host vmxOn true driver) :=
    .inl ⟨nonzero, false, unchanged⟩
  have eio : -loadEio ≠ 0 := by decide
  have enomem : -loadEnomem ≠ 0 := by decide
  rw [vmxInit]
  split
  · exact refused _ eio
  split
  · exact refused _ eio
  split
  · exact refused _ eio
  split
  · exact refused _ eio
  split
  · exact refused _ eio
  split
  · exact refused _ enomem
  have mapped := vmxInitCpus_cases inv.takeBitmap idle
    (fun cpu => ⟨(fresh cpu).1, (List.count_cons_of_ne (by simp)).trans (fresh cpu).2⟩) answered
  exact mapped.imp (And.imp_right fun ended => ⟨true, ended⟩) id

theorem LoadEnded.bitmap_iff (ended : LoadEnded vmxOn bitmap driver) :
    FreedOnce driver .msrBitmap ↔ .msrBitmap ∉ driver.taken := by
  rw [FreedOnce, ended.freed, ← List.count_eq_zero, ended.taken]
  cases bitmap <;> decide

/-- `vmx_exit` after a load that took everything gives everything back. -/
theorem LoadInv.exited (inv : LoadInv host vmxOn true driver) :
    let after := vmxExit host driver
    after.perfGuestCbs = true ∧ VmxRestored vmxOn after ∧ (∀ cpu, FreedOnce after (.area cpu)) ∧
      FreedOnce after .msrBitmap := by
  have ended := inv.disableAll.released inv.disabled
  intro after
  have freed : after = (vmxFreeVmxonAreas host (onEachCpu host vmxDisable driver)).free .msrBitmap := by
    simp only [after, vmxExit, ended.pointer, if_true]
  rw [freed]
  refine ⟨ended.callbacks, ended.vmx, fun cpu => ?_, ?_⟩
  · have other := ended.areas cpu
    rw [FreedOnce] at other ⊢
    rwa [DriverState.free, List.count_cons_of_ne (by simp)]
  · rw [FreedOnce, DriverState.free, List.count_cons_self, ended.freed, ended.taken]
    exact ⟨Nat.le_refl 1, rfl⟩

end Load

/-- No failed load is undone: the callbacks stay registered. VMX is turned off again and the
areas are given back in each, and the MSR bitmap unless `vmx_init` fails after it took it. -/
theorem failed_load_not_undone (host : LoadHost) (vmxe vmxOn : CpuId → Bool)
    (answered : host.timedOut = false)
    (failed : (duneInit host (.unloaded vmxe vmxOn)).1 ≠ 0) :
    let start : DriverState := { DriverState.unloaded vmxe vmxOn with perfGuestCbs := true }
    let after := (duneInit host (.unloaded vmxe vmxOn)).2
    ¬ LoadUndone vmxOn after ∧ after.perfGuestCbs = true ∧ VmxRestored vmxOn after ∧
      (∀ cpu, FreedOnce after (.area cpu)) ∧
      (FreedOnce after .msrBitmap ↔ .msrBitmap ∉ after.taken ∨ (vmxInit host start).1 = 0) := by
  intro start after
  have inv : LoadInv host vmxOn false start := .start vmxe
  have finish (callbacks : after.perfGuestCbs = true) : ¬ LoadUndone vmxOn after :=
    fun undone => nomatch callbacks.symm.trans undone.callbacks
  have loaded : duneInit host (.unloaded vmxe vmxOn) =
      if (vmxInit host start).1 ≠ 0 then vmxInit host start
      else if host.miscRegister ≠ 0 then (host.miscRegister, vmxExit host (vmxInit host start).2)
      else (0, (vmxInit host start).2) := rfl
  rcases vmxInit_cases inv (fun _ => rfl) (fun _ => ⟨rfl, rfl⟩) answered with
    ⟨error, bitmap, ended⟩ | ⟨fine, taken⟩
  · have same : after = (vmxInit host start).2 := congrArg Prod.snd (loaded.trans (if_pos error))
    rw [← same] at ended
    refine ⟨finish ended.callbacks, ended.callbacks, ended.vmx, ended.areas, ?_⟩
    rw [ended.bitmap_iff]
    exact ⟨.inl, fun settled => settled.resolve_right error⟩
  · have refused : host.miscRegister ≠ 0 := by
      intro registered
      exact failed (by rw [loaded, if_neg (not_not.mpr fine), if_neg (not_not.mpr registered)])
    have same : after = vmxExit host (vmxInit host start).2 :=
      congrArg Prod.snd (loaded.trans ((if_neg (not_not.mpr fine)).trans (if_pos refused)))
    obtain ⟨callbacks, vmx, areas, freed⟩ := taken.exited
    rw [← same] at callbacks vmx areas freed
    exact ⟨finish callbacks, callbacks, vmx, areas, fun _ => .inr fine, fun _ => freed⟩

/-- Two CPUs, and every call answered well. -/
def readyHost : LoadHost where
  possible := [0, 1]
  online := [0, 1]
  distinct := by decide
  cpuHasVmx := true
  setupVmcsConfig := 0
  cpuHasVmxVpid := true
  cpuHasVmxEpt := true
  hasLoadEfer := true
  msrBitmapPage := true
  areaPage := fun _ => true
  timedOut := false
  miscRegister := 0

/-- VMX is in use on the second CPU when the driver is loaded. -/
def busyCpu (cpu : CpuId) : Bool := cpu = 1

theorem failed_load_not_undone_busy :
    let after := (duneInit readyHost (.unloaded busyCpu busyCpu)).2
    (duneInit readyHost (.unloaded busyCpu busyCpu)).1 = -16 ∧ ¬ LoadUndone busyCpu after ∧
      ¬ FreedOnce after .msrBitmap := by
  have undone := failed_load_not_undone readyHost busyCpu busyCpu rfl (by decide)
  refine ⟨rfl, undone.1, fun freed => ?_⟩
  rcases undone.2.2.2.2.mp freed with untaken | loaded
  · exact untaken (by decide)
  · exact absurd loaded (by decide)

/-- The load fails with `-EBUSY`, with the callbacks registered and the MSR bitmap lost. -/
theorem busy_cpu_leaves_callbacks :
    (duneInit readyHost (.unloaded busyCpu busyCpu)).1 ≠ 0 ∧
      (duneInit readyHost (.unloaded busyCpu busyCpu)).2.perfGuestCbs = true ∧
      ¬ LoadUndone busyCpu (duneInit readyHost (.unloaded busyCpu busyCpu)).2 :=
  ⟨by decide, rfl, fun undone => nomatch undone.callbacks⟩

end RdmaPaging
