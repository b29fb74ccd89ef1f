import RdmaPaging.SthreadIsolation

/-!
The life of sthreads: `sthread_create` with its reuse of dead sthreads, the stores of a running
sthread, its calls to `read`, `open` and the exit call, and `sthread_join`. The page table of an
sthread is the function of its entries, and memory is what the host sees at its addresses.
-/

namespace RdmaPaging

abbrev HostMem := Nat → BitVec 8

def memcpy (mem : HostMem) (dst src len : Nat) : HostMem := fun addr =>
  if dst ≤ addr ∧ addr < dst + len then mem (src + (addr - dst)) else mem addr

def memzero (mem : HostMem) (dst len : Nat) : HostMem := fun addr =>
  if dst ≤ addr ∧ addr < dst + len then 0 else mem addr

def writeBytes (mem : HostMem) (dst : Nat) (bytes : List (BitVec 8)) : HostMem := fun addr =>
  if dst ≤ addr then bytes.getD (addr - dst) (mem addr) else mem addr

/-- `gpa_to_hva` of the kernel module, for the layout that it reports. -/
def DuneLayout.hostAddr (layout : DuneLayout) (gpa : PhysAddr) : Nat :=
  if gpa < layout.physLimit - gpaStackSize - gpaMapSize then gpa.toNat
  else if gpa < layout.physLimit - gpaStackSize then
    (gpa - (layout.physLimit - gpaStackSize - gpaMapSize) + layout.mmapBase).toNat
  else (gpa - (layout.physLimit - gpaStackSize) + layout.stackBase).toNat

/-- What `sthread_init` leaves: the layout, the recorded segments, the address of the checkpoint,
and the entries that a clone of the master's page table gets. The tags are those of the run. -/
structure Wedge where
  layout : DuneLayout
  segments : List Segment
  tags : List Tag
  checkpointedMem : Nat
  master : PageTable

def Wedge.size (w : Wedge) : Nat := checkpointedSize w.segments

/-- `checkpoint_do`, with its cursor. -/
def checkpointDo (segments : List Segment) (state : Nat × HostMem) : Nat × HostMem :=
  segments.foldl (fun state seg =>
    if seg.writable then
      (state.1 + (seg.stop - seg.start), memcpy state.2 state.1 seg.start (seg.stop - seg.start))
    else state) state

structure Machine where
  mem : HostMem
  sthreads : List (Sthread PageTable)
  lastId : Nat

/-- The memory after `checkpoint_do`. -/
def Wedge.checkpoint (w : Wedge) (before : HostMem) : HostMem :=
  (checkpointDo w.segments (w.checkpointedMem, before)).2

def Wedge.start (w : Wedge) (before : HostMem) : Machine := ⟨w.checkpoint before, [], 0⟩

def Machine.put (m : Machine) (s : Sthread PageTable) : Machine :=
  { m with sthreads := m.sthreads.map fun other => if other.id = s.id then s else other }

def Machine.running (m : Machine) (id : Nat) : Option (Sthread PageTable) :=
  m.sthreads.find? fun s => s.id = id ∧ s.state = .running

/-! Creation. -/

/-- The page table of `create_new_sthread`. -/
def Wedge.newSthread (w : Wedge) (id stack writable : Nat) (sc : Sc) : Sthread PageTable :=
  let s : Sthread PageTable := ⟨id, .running, 0, stack, w.master, sc, writable, 0⟩
  let remapped := remapTable w.layout w.segments writable (protectTable w.segments s w.master)
  { s with pgroot := remapped.2, walk := remapped.1 }

/-- The memory that `create_new_sthread` leaves: a blank stack and a copy of the checkpoint. -/
def Wedge.newMemory (w : Wedge) (stack writable : Nat) (mem : HostMem) : HostMem :=
  memcpy (memzero (memzero mem stack stackSize) writable w.size) writable w.checkpointedMem w.size

/-- `sthread_create`, with the addresses that `mmap` returns if it has to make a fresh sthread. -/
def sthreadCreate (w : Wedge) (m : Machine) (sc : Sc) (stack writable : Nat) : Nat × Machine :=
  match m.sthreads.find? fun s => s.state = .dead ∧ s.sc.mem = sc.mem with
  | some s => (s.id, m.put { s with sc := sc, state := .running })
  | none =>
      (m.lastId + 1,
        { mem := w.newMemory stack writable m.mem
          sthreads := w.newSthread (m.lastId + 1) stack writable sc :: m.sthreads
          lastId := m.lastId + 1 })

def sthreadJoin (m : Machine) (id : Nat) : Option Machine :=
  match m.sthreads.find? fun s => s.id = id with
  | none => some m
  | some s => if s.state = .zombie then some (m.put { s with state := .dead }) else none

/-! The exit call. -/

/-- `walk_recycle`, with `st_walk` and the memory as its state. -/
def walkRecycle (checkpointedMem writable : Nat) : EntryCb (Nat × HostMem) := fun _ pte state =>
  if pte.has pteD then
    (0, pte &&& ~~~ pteD, state.1 + 4096,
      memcpy state.2 (writable + state.1) (checkpointedMem + state.1) 4096)
  else (0, pte, state.1 + 4096, state.2)

def walkRecycleStack (stack : Nat) : EntryCb (Nat × HostMem) := fun _ pte state =>
  if pte.has pteD then (0, pte, state.1 + 4096, memzero state.2 (stack + state.1) 4096)
  else (0, pte, state.1 + 4096, state.2)

def recycle (w : Wedge) (s : Sthread PageTable) (mem : HostMem) : Sthread PageTable × HostMem :=
  let copied := eachWritable (fun startVa endVa state =>
    (tableWalk (walkRecycle w.checkpointedMem s.writable) startVa endVa state).2) w.segments
    ((0, mem), s.pgroot)
  let blanked := (tableWalk (walkRecycleStack s.stack) s.stack (s.stack + stackSize - 4096)
    ((0, copied.1.2), copied.2)).2
  ({ s with pgroot := blanked.2, walk := blanked.1.1 }, blanked.1.2)

/-! The other calls. -/

def hasFdPerm (sc : Sc) (fd perm : BitVec 32) : Bool :=
  match ((sc.fd.map fun word => word.setWidth 32).takeWhile (· ≠ 0)).find?
      (fun f : BitVec 32 => f.sshiftRight 8 = fd) with
  | some f => f &&& 0xf#32 &&& perm ≠ 0
  | none => false

/-- The host address that `walk_check_perm` computes for an entry. -/
def checkedAddr (layout : DuneLayout) (pte : Ptent) : Nat :=
  let addr := pteAddr pte
  if 0x400000000#64 ≤ addr then (addr + layout.mmapBase - 0x400000000#64).toNat else addr.toNat

def walkCheckPerm (layout : DuneLayout) : EntryCb Nat := fun _ pte walk =>
  if ¬ pte.has pteU then (1, pte, walk)
  else if ¬ pte.has pteP then (1, pte, walk)
  else if ¬ pte.has pteW then (1, pte, walk)
  else (0, pte, if walk = 0 then checkedAddr layout pte else walk)

/-- `has_mem_perm`, with the `st_walk` that it leaves. -/
def hasMemPerm (w : Wedge) (s : Sthread PageTable) (ptr len : Nat) : Bool × Nat :=
  let walked := tableWalk (walkCheckPerm w.layout) ptr ((ptr + len) % 2 ^ 64) (0, s.pgroot)
  (walked.1 = 0, walked.2.1)

/-- The address that the handler passes to the host in place of `ptr`. -/
def bufferAddr (w : Wedge) (s : Sthread PageTable) (ptr len : Nat) : Nat :=
  (hasMemPerm w s ptr len).2 + ptr % 4096

/-- The handler for `SYS_read`. The host puts `bytes` into the buffer. -/
def readCall (w : Wedge) (m : Machine) (s : Sthread PageTable) (fd : BitVec 32) (ptr len : Nat)
    (bytes : List (BitVec 8)) : Option Machine :=
  if ¬ hasFdPerm s.sc fd protRead then some m
  else if s.walk = 0 then none
  else if (hasMemPerm w s ptr len).1 then
    some { m.put { s with walk := (hasMemPerm w s ptr len).2 } with
      mem := writeBytes m.mem (bufferAddr w s ptr len) bytes }
  else some (m.put { s with walk := (hasMemPerm w s ptr len).2 })

def canDoSys (sc : Sc) (sysno : Nat) : Option Bool :=
  if sysno = 666 ∨ sysno = 0 ∨ sysno = 1 then some true
  else if 16 < sysno / 8 then none
  else (sc.sys[sysno / 8]?).map fun byte => byte &&& 1#8 <<< (sysno % 8) ≠ 0

/-- The handler for `SYS_open` of a path of length `len`, with the descriptor that the host returns. -/
def openCall (w : Wedge) (m : Machine) (s : Sthread PageTable) (ptr len : Nat) (fd : BitVec 32) :
    Option Machine :=
  match canDoSys s.sc 2 with
  | none => none
  | some false => some m
  | some true =>
      if s.walk = 0 then none
      else
        let checked := { s with walk := (hasMemPerm w s ptr len).2 }
        if (hasMemPerm w s ptr len).1 = false ∨ fd.msb then some (m.put checked)
        else (scFdAdd s.sc fd (protRead ||| protWrite)).map fun sc => m.put { checked with sc := sc }

/-- The handler for the call 666. -/
def exitCall (w : Wedge) (m : Machine) (s : Sthread PageTable) (ret : BitVec 64) : Machine :=
  let recycled := recycle w s m.mem
  { m.put { recycled.1 with ret := ret, state := .zombie } with mem := recycled.2 }

/-- A store of an sthread, which sets `PTE_A` and `PTE_D` in the entry that it goes through. -/
def userStore (w : Wedge) (m : Machine) (s : Sthread PageTable) (va : Nat) (byte : BitVec 8) : Option Machine :=
  let page := va % 2 ^ 48 / 4096
  let pte := s.pgroot page
  if pte.has pteP ∧ pte.has pteU ∧ pte.has pteW then
    some { m.put { s with pgroot := s.pgroot.set page (pte ||| (pteA ||| pteD)) } with
      mem := writeBytes m.mem (w.layout.hostAddr (pteAddr pte) + va % 4096) [byte] }
  else none

inductive SthreadEvent
  | create (sc : Sc) (stack writable : Nat)
  | store (id va : Nat) (byte : BitVec 8)
  | read (id : Nat) (fd : BitVec 32) (ptr len : Nat) (bytes : List (BitVec 8))
  | openFile (id ptr len : Nat) (fd : BitVec 32)
  | exit (id : Nat) (ret : BitVec 64)
  | join (id : Nat)

/-- Any running sthread may go on: `schedule` switches between them at reads. -/
@[grind =] def sthreadStep (w : Wedge) (m : Machine) : SthreadEvent → Option Machine
  | .create sc stack writable => some (sthreadCreate w m sc stack writable).2
  | .store id va byte => (m.running id).bind fun s => userStore w m s va byte
  | .read id fd ptr len bytes => (m.running id).bind fun s => readCall w m s fd ptr len bytes
  | .openFile id ptr len fd => (m.running id).bind fun s => openCall w m s ptr len fd
  | .exit id ret => (m.running id).map fun s => exitCall w m s ret
  | .join id => sthreadJoin m id

/-! The environment. -/

/-- The layout of a Dune process: the mapping area lies below the stack area, and both have
guest-physical addresses below the limit. -/
structure DuneLayout.Sound (layout : DuneLayout) : Prop where
  limitLow : 2 ^ 31 ≤ layout.physLimit.toNat
  limitHigh : layout.physLimit.toNat ≤ 2 ^ 52
  limitAligned : layout.physLimit.toNat % 4096 = 0
  mapAligned : layout.mmapBase.toNat % 4096 = 0
  stackAligned : layout.stackBase.toNat % 4096 = 0
  mapBelow : layout.mmapBase.toNat + gpaMapSize.toNat ≤ layout.stackBase.toNat
  stackBelow : layout.stackBase.toNat ≤ 2 ^ 47

/-- A region that `mmap` returned after the segments were recorded. The master maps it at its own
addresses only. -/
structure Wedge.Mapped (w : Wedge) (start size : Nat) : Prop where
  aligned : start % 4096 = 0
  first : w.layout.mmapBase.toNat ≤ start
  last : start + size ≤ w.layout.mmapBase.toNat + gpaMapSize.toNat
  segments : ∀ seg ∈ w.segments, Apart start size seg.start (seg.stop - seg.start)
  tags : ∀ tag ∈ w.tags, Apart start size tag.buf tagSize
  own : ∀ page < 2 ^ 36, (w.master page).has pteP = true →
    start ≤ w.layout.hostAddr (pteAddr (w.master page)) →
    w.layout.hostAddr (pteAddr (w.master page)) < start + size →
    w.layout.hostAddr (pteAddr (w.master page)) = page * 4096

/-- The state of the process after `sthread_init`. The master maps the segments, which
`checkpoint_do` has read through it. -/
structure Wedge.Ready (w : Wedge) : Prop where
  layout : w.layout.Sound
  distinct : w.segments.Pairwise fun first second =>
    Apart first.start (first.stop - first.start) second.start (second.stop - second.start)
  present : ∀ page ∈ writablePages w.segments, (w.master page).has pteP = true
  checkpoint : w.Mapped w.checkpointedMem w.size

/-- Where a stack and a private copy lie, with the stack mapped by the master. -/
structure Lodged (w : Wedge) (stack writable : Nat) : Prop where
  stackMapped : w.Mapped stack stackSize
  copyMapped : w.Mapped writable w.size
  stackPages : ∀ page, stack ≤ page * 4096 → page * 4096 < stack + stackSize →
    (w.master page).has pteP = true ∧ w.layout.hostAddr (pteAddr (w.master page)) = page * 4096
  both : Apart stack stackSize writable w.size
  stackCheckpoint : Apart stack stackSize w.checkpointedMem w.size
  copyCheckpoint : Apart writable w.size w.checkpointedMem w.size

/-- The private memory of two sthreads is apart. -/
def Strangers (w : Wedge) (stack writable otherStack otherWritable : Nat) : Prop :=
  Apart stack stackSize otherStack stackSize ∧ Apart stack stackSize otherWritable w.size ∧
    Apart writable w.size otherStack stackSize ∧ Apart writable w.size otherWritable w.size

/-- The answers of `mmap` to `create_new_sthread`: regions apart from all that are in use. -/
structure Vacant (w : Wedge) (m : Machine) (stack writable : Nat) : Prop where
  lodged : Lodged w stack writable
  others : ∀ s ∈ m.sthreads, Strangers w stack writable s.stack s.writable

/-- The environment keeps to its part: contexts are made by the calls of `sthread.h`, `mmap`
returns fresh regions, and the host reads no more than it is asked for. -/
def Allowed (w : Wedge) (m : Machine) : SthreadEvent → Prop
  | .create sc stack writable => ScBuilt w.tags sc ∧
      (m.sthreads.find? (fun s => s.state = .dead ∧ s.sc.mem = sc.mem) = none → Vacant w m stack writable)
  | .read _ _ _ len bytes => bytes.length ≤ len
  | _ => True

/-- The states that runs lead to whose steps all meet a condition. -/
inductive Runs (w : Wedge) (before : HostMem) (guard : Machine → SthreadEvent → Prop) : Machine → Prop
  | start : Runs w before guard (w.start before)
  | step {m next event} : Runs w before guard m → Allowed w m event → guard m event →
      sthreadStep w m event = some next → Runs w before guard next

/-! What is claimed. -/

/-- The byte that an sthread sees. -/
@[grind =] def seen (w : Wedge) (mem : HostMem) (s : Sthread PageTable) (va : Nat) : Option (BitVec 8) :=
  let pte := s.pgroot (va % 2 ^ 48 / 4096)
  if pte.has pteP then some (mem (w.layout.hostAddr (pteAddr pte) + va % 4096)) else none

/-- The sthread starts as one that was just made for the context. -/
structure StartsFresh (w : Wedge) (before : HostMem) (mem : HostMem) (s : Sthread PageTable) (sc : Sc) :
    Prop where
  context : s.sc = sc
  permissions : ∀ page, s.pgroot page &&& (pteP ||| pteW ||| pteU) =
    (w.newSthread s.id s.stack s.writable sc).pgroot page &&& (pteP ||| pteW ||| pteU)
  segments : ∀ seg ∈ w.segments, seg.writable = true → ∀ va, seg.covers va = true →
    seen w mem s va = some (before va)
  stack : ∀ va, s.onStack va = true → seen w mem s va = some 0

/-- Every `sthread_create` of a run launches an sthread that starts fresh. -/
def LaunchesFresh (w : Wedge) (before : HostMem) (guard : Machine → SthreadEvent → Prop) : Prop :=
  ∀ m, Runs w before guard m → ∀ sc stack writable, Allowed w m (.create sc stack writable) →
    ∃ s ∈ (sthreadCreate w m sc stack writable).2.sthreads,
      s.id = (sthreadCreate w m sc stack writable).1 ∧ s.state = .running ∧
      StartsFresh w before (sthreadCreate w m sc stack writable).2.mem s sc

/-- The address is in the copy or on the stack of the sthread, on a page whose entry is dirty. -/
def OwnDirty (w : Wedge) (s : Sthread PageTable) (addr : Nat) : Prop :=
  (s.writable ≤ addr ∧ ∃ page, (writablePages w.segments)[(addr - s.writable) / 4096]? = some page ∧
    (s.pgroot page).has pteD = true) ∨
  (s.stack ≤ addr ∧ addr < s.stack + stackSize ∧ (s.pgroot (addr / 4096)).has pteD = true)

def Sthread.owns (w : Wedge) (s : Sthread PageTable) (addr : Nat) : Prop :=
  s.stack ≤ addr ∧ addr < s.stack + stackSize ∨ s.writable ≤ addr ∧ addr < s.writable + w.size

/-- The checkpoint, the copies and the stacks. -/
def PrivateAddr (w : Wedge) (m : Machine) (addr : Nat) : Prop :=
  w.checkpointedMem ≤ addr ∧ addr < w.checkpointedMem + w.size ∨ ∃ s ∈ m.sthreads, s.owns w addr

/-- A read fills no private memory but pages of the sthread whose entries are dirty. -/
def FillsDirty (w : Wedge) (m : Machine) : SthreadEvent → Prop
  | .read id fd ptr len bytes => ∀ s, m.running id = some s → hasFdPerm s.sc fd protRead = true →
      (hasMemPerm w s ptr len).1 = true → ∀ turn < bytes.length,
      PrivateAddr w m (bufferAddr w s ptr len + turn) → OwnDirty w s (bufferAddr w s ptr len + turn)
  | _ => True

end RdmaPaging
