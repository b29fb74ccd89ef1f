import RdmaPaging.DuneAddress
import RdmaPaging.Procmap
import RdmaPaging.VmWindows

/-!
The page table that libdune builds before a thread enters the guest, `entry.c`. `dune_init` maps the
page pool, the process (every region of `/proc/self/maps`, or all that the process can have), the
vDSO, the vsyscall page and the system call page; `dune_enter` maps the blocks and the stack of the
thread.
-/

namespace RdmaPaging

def vsyscallAddr : VirtAddr := 0xffffffffff600000#64

/-- `PGADDR` of a pointer. -/
def pgAddrOf (la : VirtAddr) : VirtAddr := la &&& ~~~ 0xfff#64

/-- What `dune_init` gets from its surroundings: the results of its system calls, the contents of
`/proc/self/maps` and the addresses of its own pages. There is no copy of the vDSO where it is no
shared object or where `mmap` fails, and then the process ends. -/
structure BootProcess where
  layoutRet : Int
  layout : DuneLayout
  maps : Text
  uninit : ProcmapVars
  vsyscallPage : VirtAddr
  vdsoPage : ProcmapEntry → Option VirtAddr
  lstar : BitVec 64
  syscallPage : Option VirtAddr
  errno : Int

/-- What `dune_enter` gets from its surroundings. -/
structure EnterThread where
  layout : DuneLayout
  maps : Text
  uninit : ProcmapVars
  percpu : VirtAddr
  percpuSize : BitVec 32
  safeStack : VirtAddr
  rsp : BitVec 64

/-! The functions. A result of `none` is the end of the process. -/

/-- `dune_vm_lookup` with creation and the store to the entry that it finds. -/
def enterEntry (root : PhysAddr) (va : VirtAddr) (pte : Ptent) (vm : Vm) : Option Int × Vm :=
  match vmLookup root va.toNat .normal vm with
  | (some (some slot), next) => (some 0, next.setPte slot pte)
  | (some none, next) => (none, next)
  | (none, next) => (none, next)

def setupVsyscall (boot : BootProcess) (root : PhysAddr) (vm : Vm) : Option Int × Vm :=
  enterEntry root vsyscallAddr (pteAddr (duneVaToPa boot.layout boot.vsyscallPage) ||| pteP ||| pteU) vm

def setupVdso (boot : BootProcess) (root : PhysAddr) (ent : ProcmapEntry) (vm : Vm) : Option Int × Vm :=
  match boot.vdsoPage ent with
  | none => (none, vm)
  | some vdso => enterEntry root ent.start (pteAddr (duneVaToPa boot.layout vdso) ||| pteP ||| pteU) vm

/-- The rights that a region asks for. -/
def procmapPerm (ent : ProcmapEntry) : Perm :=
  (if ent.r then permR else 0) ||| (if ent.w then permW else 0) ||| (if ent.x then permX else 0)

/-- `__setup_mappings_cb`, with its assertion. -/
def setupMappingsCb (boot : BootProcess) (root : PhysAddr) (ent : ProcmapEntry) (vm : Vm) : Option Int × Vm :=
  if ent.start = pageBase then (some 0, vm)
  else if ent.start = vsyscallAddr then setupVsyscall boot root vm
  else if ent.type = .vdso then setupVdso boot root ent vm
  else
    match vmMapPhys root ent.start.toNat (ent.stop - ent.start).toNat (duneVaToPa boot.layout ent.start)
        (procmapPerm ent) vm with
    | (some 0, next) => (some 0, next)
    | (_, next) => (none, next)

def setupVdsoCb (boot : BootProcess) (root : PhysAddr) (ent : ProcmapEntry) (vm : Vm) : Option Int × Vm :=
  if ent.type = .vdso then setupVdso boot root ent vm else (some 0, vm)

/-- The calls of a callback for the regions. -/
def procmapEach (cb : ProcmapEntry → Vm → Option Int × Vm) : List ProcmapEntry → Vm → Option Int × Vm
  | [], vm => (some 0, vm)
  | ent :: rest, vm => goOn (cb ent vm) (procmapEach cb rest)

/-- `dune_procmap_iterate` over the contents of a file. -/
def procmapIterate (uninit : ProcmapVars) (maps : Text) (cb : ProcmapEntry → Vm → Option Int × Vm) (vm : Vm) :
    Option Int × Vm :=
  match duneProcmapIterate uninit maps with
  | some entries => procmapEach cb entries vm
  | none => (none, vm)

def mapPagePool (boot : BootProcess) (root : PhysAddr) : Vm → Option Int × Vm :=
  vmMapPhys root pageBase.toNat (maxPages * 4096) (duneVaToPa boot.layout pageBase)
    (permR ||| permW ||| permBig)

def setupMappingsPrecise (boot : BootProcess) (root : PhysAddr) (vm : Vm) : Option Int × Vm :=
  goOn (mapPagePool boot root vm) (procmapIterate boot.uninit boot.maps (setupMappingsCb boot root))

def permFull : Perm := permR ||| permW ||| permX ||| permU

def setupMappingsFull (boot : BootProcess) (root : PhysAddr) (vm : Vm) : Option Int × Vm :=
  goOn (mapPagePool boot root vm) fun vm =>
  goOn (vmMapPhys root 0 (2 ^ 32) 0 permFull vm) fun vm =>
  goOn (vmMapPhys root boot.layout.mmapBase.toNat gpaMapSize.toNat
    (duneMmapAddrToPa boot.layout boot.layout.mmapBase) permFull vm) fun vm =>
  goOn (vmMapPhys root boot.layout.stackBase.toNat gpaStackSize.toNat
    (duneStackAddrToPa boot.layout boot.layout.stackBase) permFull vm) fun vm =>
  goOn (procmapIterate boot.uninit boot.maps (setupVdsoCb boot root) vm) (setupVsyscall boot root)

def setupMappings (boot : BootProcess) (full : Bool) (root : PhysAddr) (vm : Vm) : Option Int × Vm :=
  if boot.layoutRet ≠ 0 then (some boot.layoutRet, vm)
  else if full then setupMappingsFull boot root vm
  else setupMappingsPrecise boot root vm

/-- The page table part of `setup_syscall`. -/
def setupSyscall (boot : BootProcess) (root : PhysAddr) (vm : Vm) : Option Int × Vm :=
  if boot.lstar = BitVec.allOnes 64 then (some (-boot.errno), vm)
  else
    match boot.syscallPage with
    | none => (some (-boot.errno), vm)
    | some page =>
        goOn (enterEntry root (pgAddrOf boot.lstar) (pteAddr (duneMmapAddrToPa boot.layout page) ||| pteP) vm)
          (enterEntry root (pgAddrOf boot.lstar + 0x1000#64)
            (pteAddr (duneMmapAddrToPa boot.layout (page + 0x1000#64)) ||| pteP))

/-- `dune_init` after `dune_page_init`, as far as the page table goes. -/
def duneInitMappings (boot : BootProcess) (full : Bool) (root : PhysAddr) (vm : Vm) : Option Int × Vm :=
  goOn (setupMappings boot full root (vm.clearPage root)) (setupSyscall boot root)

/-- `map_ptr`, which ignores what `dune_vm_map_phys` returns. -/
def mapPtr (layout : DuneLayout) (root : PhysAddr) (p : VirtAddr) (len : BitVec 32) (vm : Vm) :
    Option Int × Vm :=
  let page := pgAddrOf p
  let pageEnd := pgAddrOf (p + len.signExtend 64)
  match vmMapPhys root page.toNat (pageEnd - page + 0x1000#64).toNat (duneVaToPa layout page)
      (permR ||| permW) vm with
  | (some _, next) => (some 0, next)
  | (none, next) => (none, next)

def mapStackCb (thread : EnterThread) (root : PhysAddr) (e : ProcmapEntry) (vm : Vm) : Option Int × Vm :=
  if e.start ≤ thread.rsp ∧ thread.rsp < e.stop then
    mapPtr thread.layout root e.start ((e.stop - e.start).setWidth 32) vm
  else (some 0, vm)

/-- The mappings of `create_percpu` and `map_stack`. -/
def duneEnterMappings (thread : EnterThread) (root : PhysAddr) (vm : Vm) : Option Int × Vm :=
  goOn (mapPtr thread.layout root thread.percpu thread.percpuSize vm) fun vm =>
  goOn (mapPtr thread.layout root thread.safeStack 0x1000#32 vm)
    (procmapIterate thread.uninit thread.maps (mapStackCb thread root))

/-- The threads that enter, one after another. -/
def duneEnterEach (root : PhysAddr) : List EnterThread → Vm → Option Int × Vm
  | [], vm => (some 0, vm)
  | thread :: rest, vm => goOn (duneEnterMappings thread root vm) (duneEnterEach root rest)

def duneStart (boot : BootProcess) (full : Bool) (root : PhysAddr) (threads : List EnterThread) (vm : Vm) :
    Option Int × Vm :=
  goOn (duneInitMappings boot full root vm) (duneEnterEach root threads)

/-! What the calls map. -/

def pageWindow (boot : BootProcess) : Window :=
  ⟨pageBase.toNat, maxPages * 4096, duneVaToPa boot.layout pageBase, permR ||| permW ||| permBig⟩

def lowWindow : Window := ⟨0, 2 ^ 32, 0, permFull⟩

def mapWindow (boot : BootProcess) : Window :=
  ⟨boot.layout.mmapBase.toNat, gpaMapSize.toNat, duneMmapAddrToPa boot.layout boot.layout.mmapBase, permFull⟩

def stackWindow (boot : BootProcess) : Window :=
  ⟨boot.layout.stackBase.toNat, gpaStackSize.toNat,
    duneStackAddrToPa boot.layout boot.layout.stackBase, permFull⟩

/-- A page of code that the user may run. -/
def codeWindow (va : VirtAddr) (pa : PhysAddr) : Window := ⟨va.toNat, 4096, pa, permR ||| permX ||| permU⟩

def vsyscallWindow (boot : BootProcess) : Window :=
  codeWindow vsyscallAddr (duneVaToPa boot.layout boot.vsyscallPage)

/-- The copy of the first page of the vDSO takes its place. -/
def vdsoWindow (boot : BootProcess) (ent : ProcmapEntry) : Option Window :=
  if ent.type = .vdso then
    (boot.vdsoPage ent).map fun vdso => codeWindow ent.start (duneVaToPa boot.layout vdso)
  else none

def regionWindow (boot : BootProcess) (ent : ProcmapEntry) : Option Window :=
  if ent.start = pageBase then none
  else if ent.start = vsyscallAddr then some (vsyscallWindow boot)
  else if ent.type = .vdso then vdsoWindow boot ent
  else some ⟨ent.start.toNat, (ent.stop - ent.start).toNat, duneVaToPa boot.layout ent.start, procmapPerm ent⟩

/-- The two pages of system call code. The guest's kernel runs it. -/
def syscallWindows (boot : BootProcess) (page : VirtAddr) : List Window :=
  [⟨(pgAddrOf boot.lstar + 0x1000#64).toNat, 4096, duneMmapAddrToPa boot.layout (page + 0x1000#64),
      permR ||| permX⟩,
    ⟨(pgAddrOf boot.lstar).toNat, 4096, duneMmapAddrToPa boot.layout page, permR ||| permX⟩]

/-- The windows of `dune_init`, the latest first. -/
def bootWindows (boot : BootProcess) (full : Bool) (page : VirtAddr) (entries : List ProcmapEntry) :
    List Window :=
  syscallWindows boot page ++
    if full then
      vsyscallWindow boot :: ((entries.filterMap (vdsoWindow boot)).reverse ++
        [stackWindow boot, mapWindow boot, lowWindow, pageWindow boot])
    else (entries.filterMap (regionWindow boot)).reverse ++ [pageWindow boot]

/-- The pages of a block. A block that ends at the end of a page gets the next page, too. -/
def ptrWindow (layout : DuneLayout) (p : VirtAddr) (len : BitVec 32) : Window :=
  ⟨(pgAddrOf p).toNat, (pgAddrOf (p + len.signExtend 64) - pgAddrOf p + 0x1000#64).toNat,
    duneVaToPa layout (pgAddrOf p), permR ||| permW⟩

def stackRegion (thread : EnterThread) (e : ProcmapEntry) : Option Window :=
  if e.start ≤ thread.rsp ∧ thread.rsp < e.stop then
    some (ptrWindow thread.layout e.start ((e.stop - e.start).setWidth 32))
  else none

/-- The windows of `dune_enter`, the latest first. -/
def threadWindows (thread : EnterThread) (entries : List ProcmapEntry) : List Window :=
  (entries.filterMap (stackRegion thread)).reverse ++
    [ptrWindow thread.layout thread.safeStack 0x1000#32,
      ptrWindow thread.layout thread.percpu thread.percpuSize]

/-- Threads with the regions that the process has when each of them enters. -/
abbrev ThreadList := List (EnterThread × List ProcmapEntry)

def threadsWindows : ThreadList → List Window
  | [] => []
  | (thread, entries) :: rest => threadsWindows rest ++ threadWindows thread entries

variable {start : PagePool} {root : PhysAddr} {vm : Vm} {boot : BootProcess} {entries : List ProcmapEntry}

theorem enterEntry_enters {va : VirtAddr} {pa : PhysAddr} {perm : Perm} {pte : Ptent}
    (level : mapLevel perm = 0) (word : pte = pteAddr pa ||| getPtePerm perm) :
    Enters start root (enterEntry root va pte) [⟨va.toNat, 4096, pa, perm⟩] := by
  intro windows vm supplied enterable
  have page : Window.OnePage ⟨va.toNat, 4096, pa, perm⟩ :=
    ⟨enterable.proper _ List.mem_cons_self, rfl, level⟩
  obtain ⟨slot, looked, looks, entered⟩ :=
    supplied.enterPage page (List.pairwise_cons.mp enterable.fits).1 enterable.room
  refine ⟨looked.setPte slot pte, ?_, ?_⟩
  · rw [enterEntry, looks]
  · rw [word]
    exact entered

theorem codePage_enters (va : VirtAddr) (pa : PhysAddr) :
    Enters start root (enterEntry root va (pteAddr pa ||| pteP ||| pteU)) [codeWindow va pa] := by
  have flags : getPtePerm (permR ||| permX ||| permU) = pteP ||| pteU := by decide
  refine enterEntry_enters (by decide) ?_
  rw [flags, BitVec.or_assoc]

theorem setupVsyscall_enters (boot : BootProcess) :
    Enters start root (setupVsyscall boot root) [vsyscallWindow boot] :=
  codePage_enters vsyscallAddr _

theorem setupVdso_enters {ent : ProcmapEntry} (isVdso : ent.type = .vdso)
    (copied : (boot.vdsoPage ent).isSome = true) :
    Enters start root (setupVdso boot root ent) (vdsoWindow boot ent).toList := by
  obtain ⟨vdso, copy⟩ := Option.isSome_iff_exists.mp copied
  have call : setupVdso boot root ent =
      enterEntry root ent.start (pteAddr (duneVaToPa boot.layout vdso) ||| pteP ||| pteU) := by
    funext vm
    rw [setupVdso, copy]
  rw [call, vdsoWindow, if_pos isVdso, copy]
  exact codePage_enters ent.start _

/-- Where the call returns 0, and with it what follows it. -/
theorem Enters.congr {call other : Vm → Option Int × Vm} {added : List Window}
    (enters : Enters start root call added)
    (same : ∀ vm next, call vm = (some 0, next) → other vm = (some 0, next)) :
    Enters start root other added := by
  intro windows vm supplied enterable
  obtain ⟨next, called, entered⟩ := enters windows vm supplied enterable
  exact ⟨next, same vm next called, entered⟩

theorem setupMappingsCb_enters {ent : ProcmapEntry}
    (copied : ent.type = .vdso → (boot.vdsoPage ent).isSome = true) :
    Enters start root (setupMappingsCb boot root ent) (regionWindow boot ent).toList := by
  unfold setupMappingsCb regionWindow
  by_cases isPool : ent.start = pageBase
  · simp only [if_pos isPool]
    exact Enters.nothing
  · by_cases isVsyscall : ent.start = vsyscallAddr
    · simp only [if_neg isPool, if_pos isVsyscall]
      exact setupVsyscall_enters boot
    · by_cases isVdso : ent.type = .vdso
      · simp only [if_neg isPool, if_neg isVsyscall, if_pos isVdso]
        exact setupVdso_enters isVdso (copied isVdso)
      · simp only [if_neg isPool, if_neg isVsyscall, if_neg isVdso]
        refine (Enters.mapPhys ⟨ent.start.toNat, (ent.stop - ent.start).toNat,
          duneVaToPa boot.layout ent.start, procmapPerm ent⟩).congr fun vm next called => ?_
        simp only [called]

theorem setupVdsoCb_enters {ent : ProcmapEntry}
    (copied : ent.type = .vdso → (boot.vdsoPage ent).isSome = true) :
    Enters start root (setupVdsoCb boot root ent) (vdsoWindow boot ent).toList := by
  unfold setupVdsoCb
  by_cases isVdso : ent.type = .vdso
  · simp only [if_pos isVdso]
    exact setupVdso_enters isVdso (copied isVdso)
  · simp only [if_neg isVdso, vdsoWindow]
    exact Enters.nothing

theorem procmapEach_enters {cb : ProcmapEntry → Vm → Option Int × Vm} {window : ProcmapEntry → Option Window}
    (each : ∀ ent ∈ entries, Enters start root (cb ent) (window ent).toList) :
    Enters start root (procmapEach cb entries) (entries.filterMap window).reverse := by
  induction entries with
  | nil => exact Enters.nothing
  | cons ent rest ih =>
      have first := each ent List.mem_cons_self
      have others := ih fun other member => each other (List.mem_cons_of_mem _ member)
      have windows : ((ent :: rest).filterMap window).reverse =
          (rest.filterMap window).reverse ++ (window ent).toList := by
        rw [List.filterMap_cons]
        cases window ent <;> simp
      rw [windows]
      exact first.andThen others

theorem procmapIterate_enters {uninit : ProcmapVars} {maps : Text} {cb : ProcmapEntry → Vm → Option Int × Vm}
    {window : ProcmapEntry → Option Window} (listed : duneProcmapIterate uninit maps = some entries)
    (each : ∀ ent ∈ entries, Enters start root (cb ent) (window ent).toList) :
    Enters start root (procmapIterate uninit maps cb) (entries.filterMap window).reverse := by
  have call : procmapIterate uninit maps cb = procmapEach cb entries := by
    funext vm
    rw [procmapIterate, listed]
  rw [call]
  exact procmapEach_enters each

theorem mapPtr_enters (layout : DuneLayout) (p : VirtAddr) (len : BitVec 32) :
    Enters start root (mapPtr layout root p len) [ptrWindow layout p len] := by
  refine (Enters.mapPhys (ptrWindow layout p len)).congr fun vm next called => ?_
  rw [ptrWindow] at called
  simp only [mapPtr, called]

theorem mapPagePool_enters (boot : BootProcess) :
    Enters start root (mapPagePool boot root) [pageWindow boot] :=
  Enters.mapPhys (pageWindow boot)

/-- What the surroundings have to give `dune_init`. -/
structure BootProcess.Ready (boot : BootProcess) (page : VirtAddr) (entries : List ProcmapEntry) : Prop where
  layoutRet : boot.layoutRet = 0
  listed : duneProcmapIterate boot.uninit boot.maps = some entries
  copied : ∀ ent ∈ entries, ent.type = .vdso → (boot.vdsoPage ent).isSome = true
  lstar : boot.lstar ≠ BitVec.allOnes 64
  syscallPage : boot.syscallPage = some page

variable {page : VirtAddr}

theorem setupSyscall_enters (ready : boot.Ready page entries) :
    Enters start root (setupSyscall boot root) (syscallWindows boot page) := by
  have flags : getPtePerm (permR ||| permX) = pteP := by decide
  have enters : ∀ va pa, Enters start root (enterEntry root va (pteAddr pa ||| pteP))
      [⟨va.toNat, 4096, pa, permR ||| permX⟩] :=
    fun va pa => enterEntry_enters (by decide) (by rw [flags])
  have call : setupSyscall boot root = fun vm =>
      goOn (enterEntry root (pgAddrOf boot.lstar) (pteAddr (duneMmapAddrToPa boot.layout page) ||| pteP) vm)
        (enterEntry root (pgAddrOf boot.lstar + 0x1000#64)
          (pteAddr (duneMmapAddrToPa boot.layout (page + 0x1000#64)) ||| pteP)) := by
    funext vm
    rw [setupSyscall, if_neg ready.lstar, ready.syscallPage]
  rw [call]
  exact (enters (pgAddrOf boot.lstar) _).andThen (enters (pgAddrOf boot.lstar + 0x1000#64) _)

theorem setupMappings_enters (ready : boot.Ready page entries) (full : Bool) :
    Enters start root (setupMappings boot full root)
      (if full then
        vsyscallWindow boot :: ((entries.filterMap (vdsoWindow boot)).reverse ++
          [stackWindow boot, mapWindow boot, lowWindow, pageWindow boot])
      else (entries.filterMap (regionWindow boot)).reverse ++ [pageWindow boot]) := by
  cases full with
  | true =>
      have call : setupMappings boot true root = setupMappingsFull boot root := by
        funext vm
        rw [setupMappings, if_neg (by simp [ready.layoutRet]), if_pos rfl]
      rw [call]
      have regions : Enters start root (procmapIterate boot.uninit boot.maps (setupVdsoCb boot root))
          (entries.filterMap (vdsoWindow boot)).reverse :=
        procmapIterate_enters ready.listed fun ent member => setupVdsoCb_enters (ready.copied ent member)
      have whole := (mapPagePool_enters boot).andThen ((Enters.mapPhys lowWindow).andThen
        ((Enters.mapPhys (mapWindow boot)).andThen ((Enters.mapPhys (stackWindow boot)).andThen
          (regions.andThen (setupVsyscall_enters boot)))))
      simp only [List.append_assoc, List.cons_append, List.nil_append] at whole
      exact whole
  | false =>
      have call : setupMappings boot false root = setupMappingsPrecise boot root := by
        funext vm
        rw [setupMappings, if_neg (by simp [ready.layoutRet]), if_neg (by simp)]
      rw [call]
      have regions : Enters start root (procmapIterate boot.uninit boot.maps (setupMappingsCb boot root))
          (entries.filterMap (regionWindow boot)).reverse :=
        procmapIterate_enters ready.listed fun ent member => setupMappingsCb_enters (ready.copied ent member)
      exact (mapPagePool_enters boot).andThen regions

theorem duneEnterMappings_enters {thread : EnterThread}
    (listed : duneProcmapIterate thread.uninit thread.maps = some entries) :
    Enters start root (duneEnterMappings thread root) (threadWindows thread entries) := by
  have each : ∀ ent ∈ entries,
      Enters start root (mapStackCb thread root ent) (stackRegion thread ent).toList := by
    intro ent _
    unfold mapStackCb stackRegion
    by_cases holds : ent.start ≤ thread.rsp ∧ thread.rsp < ent.stop
    · simp only [if_pos holds]
      exact mapPtr_enters _ _ _
    · simp only [if_neg holds]
      exact Enters.nothing
  have percpu : Enters start root (mapPtr thread.layout root thread.percpu thread.percpuSize)
      [ptrWindow thread.layout thread.percpu thread.percpuSize] := mapPtr_enters _ _ _
  have whole := percpu.andThen ((mapPtr_enters thread.layout thread.safeStack 0x1000#32).andThen
    (procmapIterate_enters listed each))
  simp only [List.append_assoc, List.singleton_append] at whole
  exact whole

theorem duneEnterEach_enters {threads : ThreadList}
    (listed : ∀ pair ∈ threads, duneProcmapIterate pair.1.uninit pair.1.maps = some pair.2) :
    Enters start root (duneEnterEach root (threads.map Prod.fst)) (threadsWindows threads) := by
  induction threads with
  | nil => exact Enters.nothing
  | cons pair rest ih =>
      have first : Enters start root (duneEnterMappings pair.1 root) (threadWindows pair.1 pair.2) :=
        duneEnterMappings_enters (listed pair List.mem_cons_self)
      exact first.andThen (ih fun other member => listed other (List.mem_cons_of_mem _ member))

/-- A cleared page outside the pool is a root that maps nothing. -/
theorem Supplied.cleared {mmapOk : PhysAddr → Bool} {ref : Nat → Nat}
    (initialised : pageInit mmapOk ref = some vm.pool) (host : HostMaps vm.pool)
    (apart : ∀ page < maxPages, root ≠ pageToPa page) : Supplied vm.pool root [] (vm.clearPage root) := by
  obtain ⟨list, _⟩ := pageInit_spec initialised
  have zero : ∀ index, (vm.clearPage root).mem root index = 0 := fun index => if_pos rfl
  have built : RootBuilt (vm.clearPage root) root := fresh_grounded list apart zero
  refine ⟨list, host, Overlaid.nil built fun va => ?_, 0, Nat.le_refl _, Drawn.refl list⟩
  have word : (vm.clearPage root).mem root (pdx (2 + 1) va) = 0#64 := zero _
  simp only [leafOf, RadixTree.leafAt, word, tableOf_zero]
  rfl

/-- The windows of a process, the latest first. -/
def startWindows (boot : BootProcess) (full : Bool) (page : VirtAddr) (entries : List ProcmapEntry)
    (threads : ThreadList) : List Window :=
  threadsWindows threads ++ bootWindows boot full page entries

section Start

variable {mmapOk : PhysAddr → Bool} {ref : Nat → Nat} {threads : ThreadList} {full : Bool}

theorem duneStart_supplied (initialised : pageInit mmapOk ref = some vm.pool) (host : HostMaps vm.pool)
    (apart : ∀ page < maxPages, root ≠ pageToPa page) (ready : boot.Ready page entries)
    (listed : ∀ pair ∈ threads, duneProcmapIterate pair.1.uninit pair.1.maps = some pair.2)
    (enterable : Enterable vm.pool (startWindows boot full page entries threads)) :
    ∃ after, duneStart boot full root (threads.map Prod.fst) vm = (some 0, after) ∧
      Supplied vm.pool root (startWindows boot full page entries threads) after := by
  have mappings : Enters vm.pool root (setupMappings boot full root) _ := setupMappings_enters ready full
  have whole := (mappings.andThen (setupSyscall_enters ready)).andThen (duneEnterEach_enters listed)
  have entered := whole [] (vm.clearPage root) (Supplied.cleared initialised host apart)
  rw [List.append_nil] at entered
  exact entered enterable

/-- After `dune_init` and any number of `dune_enter` every address is mapped by the latest window that
holds it, to the address and with the rights of that window, and no other address is mapped. -/
theorem libdune_maps_windows (initialised : pageInit mmapOk ref = some vm.pool) (host : HostMaps vm.pool)
    (apart : ∀ page < maxPages, root ≠ pageToPa page) (ready : boot.Ready page entries)
    (listed : ∀ pair ∈ threads, duneProcmapIterate pair.1.uninit pair.1.maps = some pair.2)
    (enterable : Enterable vm.pool (startWindows boot full page entries threads)) :
    ∃ after, duneStart boot full root (threads.map Prod.fst) vm = (some 0, after) ∧
      after.pool.numPages ≤ maxPages ∧
      ∀ va, Canonical va → translate after.mem root va =
        windowsTranslate (startWindows boot full page entries threads) va := by
  obtain ⟨after, called, supplied⟩ := duneStart_supplied initialised host apart ready listed enterable
  obtain ⟨used, order, drawn⟩ := supplied.drawn
  exact ⟨after, called, drawn.within order enterable.room,
    fun va canonical => supplied.overlaid.translate canonical⟩

end Start

/-! A process of a few regions. -/

def namedRegion (start stop : BitVec 64) (r w x : Bool) (path : Text) : MapsRegion :=
  ⟨start, stop, r, w, x, true, 0, 0, 0, 0, path⟩

def plainPath (path : Text) : Bool := path.all fun c => c != '\n' && c != '\x00'

def smallLine (region : MapsRegion) (plain : plainPath region.path = true)
    (fits : (region.text 24).length < 511) : MapsLine where
  region := region
  gap := 24
  plain := by simpa [plainPath] using plain
  fits := fits

def smallMaps : List MapsLine := [
  smallLine (namedRegion 0x400000#64 0x401000#64 true false true "/bin/pgflt".toList)
    (by decide +kernel) (by decide +kernel),
  smallLine (namedRegion 0x600000#64 0x601000#64 true true false "/bin/pgflt".toList)
    (by decide +kernel) (by decide +kernel),
  smallLine (namedRegion 0x200000000#64 0x200200000#64 true true false [])
    (by decide +kernel) (by decide +kernel),
  smallLine (namedRegion 0x7ffff0200000#64 0x7ffff0400000#64 false false false [])
    (by decide +kernel) (by decide +kernel),
  smallLine (namedRegion 0x7fffffffb000#64 0x7fffffffd000#64 true true false "[stack]".toList)
    (by decide +kernel) (by decide +kernel),
  smallLine (namedRegion 0x7fffffffd000#64 0x7fffffffe000#64 true false true "[vdso]".toList)
    (by decide +kernel) (by decide +kernel),
  smallLine (namedRegion 0xffffffffff600000#64 0xffffffffff601000#64 true false true "[vsyscall]".toList)
    (by decide +kernel) (by decide +kernel)]

def smallVars : ProcmapVars := ⟨0, 0, ' ', ' ', ' ', ' ', 0, []⟩

def smallBoot : BootProcess where
  layoutRet := 0
  layout := getLayout 39 usualMm
  maps := mapsText smallMaps
  uninit := smallVars
  vsyscallPage := 0x402000#64
  vdsoPage := fun _ => some 0x7ffff0500000#64
  lstar := 0xffffffff81a00080#64
  syscallPage := some 0x7fffe8000000#64
  errno := 0

def smallThread : EnterThread where
  layout := getLayout 39 usualMm
  maps := mapsText smallMaps
  uninit := smallVars
  percpu := 0x7ffff0601000#64
  percpuSize := 0xf00#32
  safeStack := 0x7ffff0600000#64
  rsp := 0x7fffffffc800#64

def smallEntries : List ProcmapEntry := smallMaps.map (·.region.entry)

def smallThreads : ThreadList := [(smallThread, smallEntries)]

theorem smallMaps_listed : duneProcmapIterate smallVars (mapsText smallMaps) = some smallEntries :=
  mapsText_listed smallVars (by decide +kernel)

theorem smallRoot_apart : ∀ page < maxPages, (0x1000#64 : PhysAddr) ≠ pageToPa page := by
  intro page small same
  have value := congrArg BitVec.toNat same
  rw [pageToPa_toNat (maxPages_small small)] at value
  simp at value
  omega

/-- The text is mapped as it is, the guard pages are not, and the copy of the vDSO is hidden by the page
that `map_ptr` maps behind the stack. -/
theorem libdune_maps_windows_small : ∃ after,
    duneStart smallBoot false 0x1000#64 [smallThread] blankVm = (some 0, after) ∧
      (translate after.mem 0x1000#64 0x400123).map Translation.pa = some 0x400123#64 ∧
      translate after.mem 0x1000#64 0x7ffff0200000 = none ∧
      (translate after.mem 0x1000#64 0x7fffffffd010).map Translation.writable = some true := by
  have enterable : Enterable blankVm.pool
      (startWindows smallBoot false 0x7fffe8000000#64 smallEntries smallThreads) :=
    ⟨by decide +kernel, by decide +kernel, by decide +kernel⟩
  have listed : ∀ pair ∈ smallThreads, duneProcmapIterate pair.1.uninit pair.1.maps = some pair.2 := by
    simp [smallThreads, smallThread, smallMaps_listed]
  have ready : smallBoot.Ready 0x7fffe8000000#64 smallEntries :=
    ⟨rfl, smallMaps_listed, fun _ _ _ => rfl, by decide, rfl⟩
  obtain ⟨after, called, _, translates⟩ :=
    libdune_maps_windows blankVm_pool (fun _ _ => rfl) smallRoot_apart ready listed enterable
  refine ⟨after, called, ?_, ?_, ?_⟩
  · rw [translates _ (Or.inl (by decide))]
    decide +kernel
  · rw [translates _ (Or.inl (by decide))]
    decide +kernel
  · rw [translates _ (Or.inl (by decide))]
    decide +kernel

end RdmaPaging
