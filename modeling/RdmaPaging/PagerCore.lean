import RdmaPaging.ClientCore
import RdmaPaging.DuneAddress

/-!
The pager of `page.c`: `main` pages a region out over RDMA and unmaps it, and
`pgflt_handler` pages it in again at the first touch. Any number of threads may touch the
region, and what the frames hold while they are unmapped is up to the environment.
-/

namespace RdmaPaging

def pageSize : Nat := 4096

/-- The globals of `page.c` and libdune that do not change. -/
structure PagerConfig where
  layout : DuneLayout
  pgroot : PhysAddr
  page : Nat
  pageNr : Nat

/-- `count * PAGE_SIZE` is an `int`, widened where it is used as an offset or a length. -/
def pageBytes (count : Nat) : Nat := ((BitVec.ofNat 32 (count * pageSize)).signExtend 64).toNat

/-- Where a thread stands in `pgflt_handler` for a fault at an address. -/
inductive Fault
  | none
  | taken (addr : Nat)
  | locked (addr : Nat)
  | installed (addr : Nat)
  | copied (addr : Nat)
  deriving DecidableEq

def Fault.addr? : Fault → Option Nat
  | .none => .none
  | .taken addr | .locked addr | .installed addr | .copied addr => some addr

def Fault.holdsLock : Fault → Bool
  | .none | .taken _ => false
  | .locked _ | .installed _ | .copied _ => true

/-- A load from the region, with the stores to the region made before it. -/
structure PageLoad where
  offset : Nat
  value : UInt8
  earlier : List (Nat × UInt8)

/-- The process. `frames` is the memory by page frames; `next` is the page that the
page-out loop has come to, and no page once the region is unmapped. The fields from
`handled` on are history that no step reads: the pages for which `pgflt_handler` has run,
and the stores to and loads from the region, the latest first. -/
structure Pager where
  client : Client pageSize
  vm : Vm
  frames : PhysAddr → Buf pageSize
  next : Option Nat
  syscallMtx : Option Nat
  faults : Nat → Fault
  handled : List Nat
  stores : List (Nat × UInt8)
  loads : List PageLoad

/-- The frame that holds an address. -/
def frameAt (config : PagerConfig) (vm : Vm) (va : Nat) : Option PhysAddr :=
  (translate vm.mem config.pgroot (va / pageSize * pageSize)).map Translation.pa

def pageOffset (va : Nat) : Fin pageSize := ⟨va % pageSize, Nat.mod_lt _ (by decide)⟩

def loadByte (config : PagerConfig) (state : Pager) (va : Nat) : Option UInt8 :=
  (frameAt config state.vm va).map fun frame => state.frames frame (pageOffset va)

def storeByte (config : PagerConfig) (state : Pager) (va : Nat) (value : UInt8) :
    Option (PhysAddr → Buf pageSize) :=
  (frameAt config state.vm va).map fun frame =>
    Function.update state.frames frame
      (Function.update (state.frames frame) (pageOffset va) value)

/-- `memcpy` of a page from `va`, which may lie on two pages. -/
def loadBytes (config : PagerConfig) (state : Pager) (va : Nat) : Option (Buf pageSize) :=
  match frameAt config state.vm va, frameAt config state.vm (va + (pageSize - 1)) with
  | some low, some high => some fun index =>
      state.frames (if va % pageSize + index < pageSize then low else high)
        (pageOffset (va + index))
  | _, _ => none

/-- `memcpy` of a page to `va`, which may lie on two pages. -/
def storeBytes (config : PagerConfig) (state : Pager) (va : Nat) (bytes : Buf pageSize) :
    Option (PhysAddr → Buf pageSize) :=
  match frameAt config state.vm va, frameAt config state.vm (va + (pageSize - 1)) with
  | some low, some high => some fun frame index =>
      if frame = low ∧ va % pageSize ≤ index then bytes (pageOffset (index - va % pageSize))
      else if frame = high ∧ (index : Nat) < va % pageSize then
        bytes (pageOffset (index + pageSize - va % pageSize))
      else state.frames frame index
  | _, _ => none

def inRegion (config : PagerConfig) (addr : Nat) : Bool :=
  config.page ≤ addr && addr < config.page + config.pageNr * pageSize

/-- The thread that runs `main`. -/
def mainThread : Nat := 0

inductive PagerAction
  | writeWait
  | writeCopy
  | writePost
  | unmap
  | fault (tid addr : Nat)
  | lock (tid : Nat)
  | install (tid : Nat)
  | readPost (tid : Nat)
  | readWait (tid : Nat)
  | readCopy (tid : Nat)
  | unlock (tid : Nat)
  | load (tid addr : Nat)
  | store (tid addr : Nat) (value : UInt8)
  | scribble (frame : PhysAddr) (bytes : Buf pageSize)
  | background (action : Action pageSize)

/-- The steps of the poller and of the NIC. -/
@[grind =] def Action.isBackground : Action pageSize → Bool
  | .pollCq | .handleWc | .nicFetch _ | .nicExec | .nicComplete => true
  | _ => false

def Pager.onClient (state : Pager) (action : Action pageSize) : Option Pager :=
  (step state.client action).map fun client => { state with client := client }

def Pager.setFault (state : Pager) (tid : Nat) (fault : Fault) : Pager :=
  { state with faults := Function.update state.faults tid fault }

/-- The page-out loop of `main` and the unmapping after it. -/
def stepMain (config : PagerConfig) (state : Pager) (index : Nat) : PagerAction → Option Pager
  | .writeWait =>
      if index < config.pageNr then
        state.onClient (.writeWait mainThread (pageBytes index))
      else none
  | .writeCopy =>
      (loadBytes config state (config.page + pageBytes index)).bind fun bytes =>
        state.onClient (.writeCopy mainThread bytes)
  | .writePost =>
      (state.onClient (.writePost mainThread)).map fun posted =>
        { posted with next := some (index + 1) }
  | .unmap =>
      if index < config.pageNr then none
      else
        match vmUnmap config.pgroot config.page (pageBytes config.pageNr) state.vm with
        | (some (), vm) => some { state with vm := vm, next := none }
        | (none, _) => none
  | _ => none

/-- The entry that `pgflt_handler` stores for an address. -/
def faultPte (config : PagerConfig) (addr : Nat) : Ptent :=
  pteP ||| pteW ||| pteAddr (duneVaToPa config.layout (BitVec.ofNat 64 addr))

/-- The steps of `pgflt_handler`. A failed lookup or access ends the process. -/
@[grind =] def stepHandler (config : PagerConfig) (state : Pager) : PagerAction → Option Pager
  | .lock tid =>
      match state.faults tid, state.syscallMtx with
      | .taken addr, none => some { state.setFault tid (.locked addr) with syscallMtx := some tid }
      | _, _ => none
  | .install tid =>
      match state.faults tid with
      | .locked addr =>
          match vmLookup config.pgroot addr .normal state.vm with
          | (some (some pte), vm) =>
              some { state.setFault tid (.installed addr) with
                vm := vm.setPte pte (faultPte config addr) }
          | _ => none
      | _ => none
  | .readPost tid =>
      match state.faults tid with
      | .installed addr =>
          state.onClient (.readPost tid
            (BitVec.ofNat 64 addr - BitVec.ofNat 64 config.page).toNat)
      | _ => none
  | .readWait tid =>
      match state.faults tid with
      | .installed _ => state.onClient (.readWait tid)
      | _ => none
  | .readCopy tid =>
      match state.faults tid with
      | .installed addr =>
          (storeBytes config state addr state.client.conn.rdmaLocalRegion).bind fun frames =>
            (state.onClient (.readCopy tid)).map fun returned =>
              { returned.setFault tid (.copied addr) with frames := frames }
      | _ => none
  | .unlock tid =>
      match state.faults tid with
      | .copied addr =>
          some { state.setFault tid .none with
            syscallMtx := none
            handled := (addr - config.page) / pageSize :: state.handled }
      | _ => none
  | _ => none

/-- A thread outside `pgflt_handler` touches an address of the region. -/
@[grind =] def stepTouch (config : PagerConfig) (state : Pager) : PagerAction → Option Pager
  | .fault tid addr =>
      if state.faults tid = .none ∧ inRegion config addr ∧ frameAt config state.vm addr = none then
        some (state.setFault tid (.taken addr))
      else none
  | .load tid addr =>
      if state.faults tid = .none ∧ inRegion config addr then
        (loadByte config state addr).map fun value =>
          { state with loads := ⟨addr - config.page, value, state.stores⟩ :: state.loads }
      else none
  | .store tid addr value =>
      if state.faults tid = .none ∧ inRegion config addr then
        (storeByte config state addr value).map fun frames =>
          { state with frames := frames, stores := (addr - config.page, value) :: state.stores }
      else none
  | _ => none

/-- No page of the region is mapped to the frame. -/
def unmappedFrame (config : PagerConfig) (state : Pager) (frame : PhysAddr) : Bool :=
  (List.range config.pageNr).all fun index =>
    frameAt config state.vm (config.page + index * pageSize) ≠ some frame

/-- One step of the process, its NIC or its environment. -/
@[grind =] def pagerStep (config : PagerConfig) (state : Pager) (action : PagerAction) : Option Pager :=
  match action with
  | .writeWait | .writeCopy | .writePost | .unmap =>
      match state.next with
      | some index => stepMain config state index action
      | none => none
  | .lock _ | .install _ | .readPost _ | .readWait _ | .readCopy _ | .unlock _ =>
      match state.next with
      | some _ => none
      | none => stepHandler config state action
  | .fault _ _ | .load _ _ | .store _ _ _ =>
      match state.next with
      | some _ => none
      | none => stepTouch config state action
  | .scribble frame bytes =>
      if unmappedFrame config state frame then
        some { state with frames := Function.update state.frames frame bytes }
      else none
  | .background action => if action.isBackground then state.onClient action else none

end RdmaPaging
