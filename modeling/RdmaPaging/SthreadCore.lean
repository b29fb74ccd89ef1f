import RdmaPaging.DuneAddress
import RdmaPaging.UmmCore
import RdmaPaging.VmPageTable

/-!
The compartments of Wedge. `sthread.c` builds the page table of an sthread in three passes:
a clone of the master's, a walk that denies all but what the security context grants, and a
walk for each writable segment that puts the pages of a private copy in its place.
-/

namespace RdmaPaging

def pteA : Ptent := 0x20#64
def pteD : Ptent := 0x40#64

def stackSize : Nat := 4096 * 10

def tagSize : Nat := 4096 * 10

/-- A line of `/proc/self/maps` that `checkpoint_prepare` recorded. The kernel lists page-aligned
ranges of one half of the address space. -/
structure Segment where
  start : Nat
  stop : Nat
  flags : BitVec 32
  startAligned : start % 4096 = 0
  stopAligned : stop % 4096 = 0
  ordered : start < stop
  canonical : stop ≤ 2 ^ 47 ∨ 2 ^ 64 - 2 ^ 47 ≤ start ∧ stop < 2 ^ 64

def Segment.covers (seg : Segment) (addr : Nat) : Bool := seg.start ≤ addr ∧ addr < seg.stop

def Segment.writable (seg : Segment) : Bool := seg.flags &&& protWrite ≠ 0

/-- A tag, with the address that `mmap` gave it. -/
structure Tag where
  id : Int
  buf : Nat
  aligned : buf % 4096 = 0
  user : buf + tagSize ≤ 2 ^ 47

def Tag.covers (tag : Tag) (addr : Nat) : Bool := tag.buf ≤ addr ∧ addr < tag.buf + tagSize

/-- `sc_t`. -/
structure Sc where
  mem : List (BitVec 64)
  fd : List (BitVec 64)
  sys : List (BitVec 8)
deriving DecidableEq

def scInit : Sc where
  mem := List.replicate 8 0
  fd := List.replicate 8 0
  sys := List.replicate 16 0

def scMemAdd (tags : List Tag) (sc : Sc) (tid : Int) (prot : BitVec 32) : Option Sc :=
  match tags.find? fun tag => tag.id = tid with
  | none => none
  | some tag =>
      let p := sc.mem.findIdx (· = 0)
      let addr := BitVec.ofNat 64 tag.buf &&& 0xfffffffffffffff0#64
      if p < 8 ∧ addr = BitVec.ofNat 64 tag.buf ∧ prot &&& 0xf#32 = prot then
        some { sc with mem := sc.mem.set p (addr ||| prot.signExtend 64) }
      else none

def scFdAdd (sc : Sc) (fd prot : BitVec 32) : Option Sc :=
  let f := sc.fd.findIdx (· = 0)
  let word := ((fd <<< 8) ||| prot).signExtend 64
  if f < 8 ∧ word >>> 8 = fd.signExtend 64 ∧ word &&& 0xf#64 = prot.signExtend 64 then
    some { sc with fd := sc.fd.set f word }
  else none

def scSysAdd (sc : Sc) (sysno : Nat) : Option Sc :=
  if 16 < sysno / 8 then none
  else some { sc with sys := sc.sys.modify (sysno / 8) (· ||| 1#8 <<< (sysno % 8)) }

/-- The contexts that the calls of `sthread.h` make. -/
inductive ScBuilt (tags : List Tag) : Sc → Prop
  | init : ScBuilt tags scInit
  | memAdd {sc next tid prot} : ScBuilt tags sc → scMemAdd tags sc tid prot = some next → ScBuilt tags next
  | fdAdd {sc next fd prot} : ScBuilt tags sc → scFdAdd sc fd prot = some next → ScBuilt tags next
  | sysAdd {sc next sysno} : ScBuilt tags sc → scSysAdd sc sysno = some next → ScBuilt tags next

inductive StState
  | running
  | zombie
  | dead
deriving DecidableEq

/-- `struct sthread`, with its page table as `Root`. -/
structure Sthread (Root : Type) where
  id : Nat
  state : StState
  ret : BitVec 64
  stack : Nat
  pgroot : Root
  sc : Sc
  writable : Nat
  walk : Nat

def Sthread.onStack {Root : Type} (s : Sthread Root) (addr : Nat) : Bool :=
  s.stack ≤ addr ∧ addr < s.stack + stackSize

/-- The words of `sc_mem` up to the first that is zero. -/
def Sc.grants (sc : Sc) : List (BitVec 64) := sc.mem.takeWhile (· ≠ 0)

def grantStart (word : BitVec 64) : BitVec 64 := word &&& 0xfffffffffffffff0#64

def grantCovers (word : BitVec 64) (addr : Nat) : Bool :=
  (grantStart word).toNat ≤ addr ∧ addr < (grantStart word + BitVec.ofNat 64 tagSize).toNat

def grantWrites (word : BitVec 64) : Bool := word &&& 0x2#64 ≠ 0

/-- What `walk_protect` makes of an entry. -/
def protectEntry {Root : Type} (segments : List Segment) (s : Sthread Root) (addr : Nat) (pte : Ptent) :
    Ptent :=
  let denied := pte &&& ~~~ pteU
  match segments.find? fun seg => seg.covers addr with
  | some seg => orIf (!seg.writable) pteU denied
  | none =>
      let onStack := orIf (s.onStack addr) pteU denied
      match s.sc.grants.find? fun word => grantCovers word addr with
      | some word =>
          if grantWrites word then onStack ||| pteU else (onStack ||| pteU) &&& ~~~ pteW
      | none => onStack

def walkProtect {Root : Type} (segments : List Segment) (s : Sthread Root) : EntryCb Unit :=
  fun va pte _ => (0, protectEntry segments s va pte, ())

/-- The entry for the page of the private copy at an offset. -/
def copyEntry (layout : DuneLayout) (writable offset : Nat) : Ptent :=
  duneVaToPa layout (BitVec.ofNat 64 (writable + offset)) ||| pteP ||| pteW ||| pteU

/-- `walk_remap`, with `st_walk` as its state. -/
def walkRemap (layout : DuneLayout) (writable : Nat) : EntryCb Nat := fun _ _ walk =>
  (0, copyEntry layout writable walk, walk + 4096)

/-- The loop over the recorded segments that walks the writable ones. -/
def eachWritable {τ : Type*} (walk : Nat → Nat → τ → τ) (segments : List Segment) (state : τ) : τ :=
  segments.foldl (fun state seg =>
    if seg.writable then walk seg.start (seg.stop - 4096) state else state) state

/-- `_checkpointed_size`. -/
def checkpointedSize (segments : List Segment) : Nat :=
  ((segments.filter Segment.writable).map fun seg => seg.stop - seg.start).sum

/-- A walk over the tables in memory. -/
def memoryWalk {σ : Type} (cb : EntryCb σ) (root : PhysAddr) (startVa endVa : Nat) (state : σ × Vm) :
    σ × Vm :=
  (pageWalkOf (fun state : σ × Vm => state.2.mem) cb.inMemory 3 root startVa endVa state).2

/-- `create_new_sthread`, with the addresses that `mmap` returns for the stack and the copy. -/
def createNewSthread (layout : DuneLayout) (segments : List Segment) (pgroot : PhysAddr)
    (id stack writable : Nat) (sc : Sc) (vm : Vm) : Option (Sthread PhysAddr) × Vm :=
  match vmClone pgroot vm with
  | (some (some root), cloned) =>
      let s : Sthread PhysAddr := ⟨id, .running, 0, stack, root, sc, writable, 0⟩
      let denied := memoryWalk (walkProtect segments s) root vaStart vaEnd ((), cloned)
      let remapped := eachWritable (memoryWalk (walkRemap layout writable) root) segments (0, denied.2)
      (some { s with walk := remapped.1 }, remapped.2)
  | (_, vm) => (none, vm)

/-! The passes over a page table. -/

/-- The first pass denies what the context does not grant. -/
def protectTable {Root : Type} (segments : List Segment) (s : Sthread Root) (table : PageTable) : PageTable :=
  (tableWalk (walkProtect segments s) vaStart vaEnd ((), table)).2.2

/-- The second pass puts in the private copy. -/
def remapTable (layout : DuneLayout) (segments : List Segment) (writable : Nat) (table : PageTable) :
    Nat × PageTable :=
  eachWritable (fun startVa endVa state => (tableWalk (walkRemap layout writable) startVa endVa state).2)
    segments (0, table)

end RdmaPaging
