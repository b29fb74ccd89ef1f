import RdmaPaging.DuneAddress

/-!
The memory calls of the sandbox, `umm.c`. Each call changes the process's own memory map
by a system call of the host, then the page table of the untrusted code, then the counters
`brk_len` and `mmap_len`.
-/

namespace RdmaPaging

abbrev Size := BitVec 64

def appMaxElfVaddr : VirtAddr := 0x70000000#64
def ummAddrStart : VirtAddr := 0x300000000#64
def ummAddrEnd : VirtAddr := 0x700000000#64
def appStackSize : Size := 0x800000#64

def ummEnomem : Int := 12
def ummEacces : Int := 13
def ummEinval : Int := 22

/-- `PGADDR(len + PGSIZE - 1)`. -/
def pgRound (len : Size) : Size := (len + 0xfff#64) &&& ~~~ 0xfff#64

/-- `BIG_PGADDR(len + BIG_PGSIZE - 1)`. -/
def bigPgRound (len : Size) : Size := (len + 0x1fffff#64) &&& ~~~ 0x1fffff#64

def memRefIsSafe (ptr : VirtAddr) (len : Size) : Bool :=
  (len ≤ appMaxElfVaddr && ptr + len ≤ appMaxElfVaddr) ||
    (ummAddrStart ≤ ptr && ptr + len < ummAddrEnd)

def protRead : BitVec 32 := 0x1#32
def protWrite : BitVec 32 := 0x2#32
def protExec : BitVec 32 := 0x4#32

def protToPerm (prot : BitVec 32) : Perm :=
  permU ||| (if prot &&& protRead ≠ 0 then permR else 0) |||
    (if prot &&& protWrite ≠ 0 then permW else 0) |||
    (if prot &&& protExec ≠ 0 then permX else 0)

def mapAnonymous : BitVec 32 := 0x20#32
def mremapMaymove : BitVec 32 := 0x1#32
def mremapFixed : BitVec 32 := 0x2#32
def shmRdonly : BitVec 32 := 0x1000#32
def shmRnd : BitVec 32 := 0x2000#32

/-! The host. A page is its number, and a call that the host does not refuse acts as on
Linux. -/

abbrev HostMap := Nat → Bool

/-- The pages that a range touches. -/
def rangePages (addr : VirtAddr) (len : Size) (page : Nat) : Bool :=
  addr.toNat / 4096 ≤ page && page < (addr.toNat + len.toNat + 4095) / 4096

def HostMap.map (host : HostMap) (addr : VirtAddr) (len : Size) : HostMap :=
  fun page => rangePages addr len page || host page

def HostMap.unmap (host : HostMap) (addr : VirtAddr) (len : Size) : HostMap :=
  fun page => !rangePages addr len page && host page

/-- A page-aligned start and an end in the lower half of the address space. -/
def hostFits (addr : VirtAddr) (len : Size) : Bool :=
  addr.toNat % 4096 = 0 && addr.toNat + len.toNat ≤ 2 ^ 47

/-- A fixed `mmap`. -/
def hostMmap (willing : Bool) (addr : VirtAddr) (len : Size) (host : HostMap) : Option HostMap :=
  if willing && len ≠ 0 && hostFits addr len then some (host.map addr len) else none

def hostMunmap (willing : Bool) (addr : VirtAddr) (len : Size) (host : HostMap) :
    Option HostMap :=
  if willing && len ≠ 0 && hostFits addr len then some (host.unmap addr len) else none

def hostMprotect (willing : Bool) (addr : VirtAddr) (len : Size) : Bool :=
  willing && hostFits addr len

/-- `mremap` to a fixed address. An old size of 0 leaves the old mapping in place. -/
def hostMremap (willing : Bool) (old : VirtAddr) (oldSize newSize : Size) (new : VirtAddr)
    (host : HostMap) : Option HostMap :=
  if willing && newSize ≠ 0 && hostFits old oldSize && hostFits new newSize then
    some ((if oldSize = 0 then host else host.unmap old oldSize).map new newSize)
  else none

/-- `shmat` of a segment of `len` bytes, with the address that it returns. -/
def hostShmat (willing : Bool) (addr : VirtAddr) (len : Size) (shmflg : BitVec 32)
    (host : HostMap) : Option (VirtAddr × HostMap) :=
  let mem := if shmflg &&& shmRnd ≠ 0 then addr &&& ~~~ 0xfff#64 else addr
  if willing && len ≠ 0 && hostFits mem len then some (mem, host.map mem len) else none

/-- How the host answers a call: whether it is willing to do the first and the second of
the system calls that are made, and the `errno` of a failure. -/
structure HostWill where
  first : Bool
  second : Bool
  errno : Int

/-! The calls. -/

/-- The page table root and the layout that `dune_va_to_pa` uses. -/
structure UmmConfig where
  pgroot : PhysAddr
  layout : DuneLayout

structure Umm where
  vm : Vm
  host : HostMap
  brkLen : Size
  mmapLen : Size

inductive UmmResult
  | value (result : BitVec 64)
  | error (code : Int)
  deriving DecidableEq

def ummSpaceLeft (brkLen mmapLen len : Size) : Bool :=
  brkLen + mmapLen + len < ummAddrEnd - ummAddrStart

def ummGetMapPos (mmapLen : Size) : VirtAddr := ummAddrEnd - mmapLen

/-- The common part of `umm_mmap_anom` and `umm_mmap_file`: map in the host, then in the
page table, and undo the first when the second fails. No result is the end of the
process. -/
@[grind =] def ummMapFixed (config : UmmConfig) (addr : VirtAddr) (len : Size) (perm : Perm)
    (will : HostWill) (umm : Umm) : Option UmmResult × Umm :=
  match hostMmap will.first addr len umm.host with
  | none => (some (.error (-will.errno)), umm)
  | some host =>
      match vmMapPhys config.pgroot addr.toNat len.toNat (duneVaToPa config.layout addr) perm
        umm.vm with
      | (none, vm) => (none, { umm with vm := vm, host := host })
      | (some ret, vm) =>
          if ret = 0 then (some (.value 0), { umm with vm := vm, host := host })
          else
            (some (.error ret), { umm with
              vm := vm
              host := (hostMunmap will.second addr len host).getD host })

def ummMmapAnom (config : UmmConfig) (addr : VirtAddr) (len : Size) (prot : BitVec 32) (big : Bool)
    (will : HostWill) (umm : Umm) : Option UmmResult × Umm :=
  ummMapFixed config addr len (if big then protToPerm prot ||| permBig else protToPerm prot) will umm

def ummMmapFile (config : UmmConfig) (addr : VirtAddr) (len : Size) (prot : BitVec 32)
    (will : HostWill) (umm : Umm) : Option UmmResult × Umm :=
  ummMapFixed config addr len (protToPerm prot) will umm

@[grind =] def ummBrk (config : UmmConfig) (brk : VirtAddr) (will : HostWill) (umm : Umm) :
    Option UmmResult × Umm :=
  if brk = 0 then (some (.value ummAddrStart), umm)
  else if brk < ummAddrStart then (some (.error (-ummEinval)), umm)
  else
    let len := pgRound (brk - ummAddrStart)
    if ¬ ummSpaceLeft umm.brkLen umm.mmapLen len then (some (.error (-ummEnomem)), umm)
    else if len = umm.brkLen then (some (.value brk), umm)
    else if len < umm.brkLen then
      match hostMunmap will.first (ummAddrStart + len) (umm.brkLen - len) umm.host with
      | none => (some (.error (-will.errno)), umm)
      | some host =>
          match vmUnmap config.pgroot (ummAddrStart + len).toNat (umm.brkLen - len).toNat umm.vm with
          | (none, vm) => (none, { umm with vm := vm, host := host })
          | (some (), vm) => (some (.value brk), { umm with vm := vm, host := host, brkLen := len })
    else
      match ummMmapAnom config (ummAddrStart + umm.brkLen) (len - umm.brkLen)
        (protRead ||| protWrite) false will umm with
      | (some (.value _), umm) => (some (.value brk), { umm with brkLen := len })
      | other => other

/-- The address of a new mapping below the earlier ones. -/
def ummNextPos (mmapLen len : Size) : VirtAddr := ummGetMapPos mmapLen - pgRound len

def Umm.bump (umm : Umm) (adjust : Bool) (len : Size) : Umm :=
  if adjust then { umm with mmapLen := umm.mmapLen + pgRound len } else umm

/-- `umm_mmap` after its address is chosen. -/
def ummMmapAt (config : UmmConfig) (addr : VirtAddr) (adjust : Bool) (len : Size)
    (prot flags : BitVec 32) (fd : Int) (will : HostWill) (umm : Umm) : Option UmmResult × Umm :=
  if flags &&& mapAnonymous ≠ 0 then
    match ummMmapAnom config addr len prot false will umm with
    | (some (.value _), umm) => (some (.value addr), umm.bump adjust len)
    | other => other
  else if 0 < fd then
    match ummMmapFile config addr len prot will umm with
    | (some (.value _), umm) => (some (.value addr), umm.bump adjust len)
    | other => other
  else (some (.error (-ummEinval)), umm)

def ummMmap (config : UmmConfig) (addr : VirtAddr) (len : Size) (prot flags : BitVec 32) (fd : Int)
    (will : HostWill) (umm : Umm) : Option UmmResult × Umm :=
  if addr = 0 then
    if ¬ ummSpaceLeft umm.brkLen umm.mmapLen len then (some (.error (-ummEnomem)), umm)
    else ummMmapAt config (ummNextPos umm.mmapLen len) true len prot flags fd will umm
  else if ¬ memRefIsSafe addr len then (some (.error (-ummEinval)), umm)
  else ummMmapAt config addr false len prot flags fd will umm

/-- `munmap` in the host and then in the page table. -/
def ummUnmapBoth (config : UmmConfig) (addr : VirtAddr) (len : Size) (host : HostMap) (umm : Umm) :
    Option UmmResult × Umm :=
  match vmUnmap config.pgroot addr.toNat len.toNat umm.vm with
  | (none, vm) => (none, { umm with vm := vm, host := host })
  | (some (), vm) => (some (.value 0), { umm with vm := vm, host := host })

/-- `umm_munmap`, with its second try for big pages. -/
def ummMunmap (config : UmmConfig) (addr : VirtAddr) (len : Size) (will : HostWill) (umm : Umm) :
    Option UmmResult × Umm :=
  if ¬ memRefIsSafe addr len then (some (.error (-ummEacces)), umm)
  else
    match hostMunmap will.first addr len umm.host with
    | some host => ummUnmapBoth config addr len host umm
    | none =>
        match hostMunmap will.second addr (bigPgRound len) umm.host with
        | some host => ummUnmapBoth config addr (bigPgRound len) host umm
        | none => (some (.error (-will.errno)), umm)

def ummMprotect (config : UmmConfig) (addr : VirtAddr) (len : Size) (prot : BitVec 32)
    (will : HostWill) (umm : Umm) : Option UmmResult × Umm :=
  if ¬ memRefIsSafe addr len then (some (.error (-ummEacces)), umm)
  else if ¬ hostMprotect will.first addr len then (some (.error (-will.errno)), umm)
  else
    match vmMprotect config.pgroot addr.toNat len.toNat (protToPerm prot) umm.vm with
    | (some 0, vm) => (some (.value 0), { umm with vm := vm })
    | (_, vm) => (none, { umm with vm := vm })

/-- `umm_shmat` after its address is chosen. -/
def ummShmatAt (config : UmmConfig) (addr : VirtAddr) (adjust : Bool) (len : Size)
    (shmflg : BitVec 32) (will : HostWill) (umm : Umm) : Option UmmResult × Umm :=
  let prot := if shmflg &&& shmRdonly ≠ 0 then protRead else protRead ||| protWrite
  match hostShmat will.first addr len shmflg umm.host with
  | none => (some (.error (-will.errno)), umm)
  | some (mem, host) =>
      if mem ≠ addr then (some (.error (-will.errno)), { umm with host := host })
      else
        match vmMapPhys config.pgroot addr.toNat len.toNat (duneVaToPa config.layout addr)
          (protToPerm prot) umm.vm with
        | (none, vm) => (none, { umm with vm := vm, host := host })
        | (some ret, vm) =>
            if ret = 0 then
              (some (.value addr), Umm.bump { umm with vm := vm, host := host } adjust len)
            else
              (some (.error ret), { umm with
                vm := vm
                host := if will.second then host.unmap addr len else host })

/-- `umm_shmat`. The segment's size is what `shmctl` returns, if it succeeds. -/
def ummShmat (config : UmmConfig) (segsz : Option Size) (addr : VirtAddr) (shmflg : BitVec 32)
    (will : HostWill) (umm : Umm) : Option UmmResult × Umm :=
  match segsz with
  | none => (some (.error (-1)), umm)
  | some len =>
      if addr = 0 then
        if ¬ ummSpaceLeft umm.brkLen umm.mmapLen len then (some (.error (-ummEnomem)), umm)
        else ummShmatAt config (ummNextPos umm.mmapLen len) true len shmflg will umm
      else if ¬ memRefIsSafe addr len then (some (.error (-ummEinval)), umm)
      else ummShmatAt config addr false len shmflg will umm

/-- `umm_mremap` after its new address is chosen. -/
def ummMremapAt (config : UmmConfig) (old : VirtAddr) (oldSize newSize : Size) (flags : BitVec 32)
    (new : VirtAddr) (adjust : Bool) (will : HostWill) (umm : Umm) : Option UmmResult × Umm :=
  if flags &&& mremapMaymove = 0 then (some (.error (-ummEinval)), umm)
  else
    match hostMremap will.first old oldSize newSize new umm.host with
    | none => (some (.error (-will.errno)), umm)
    | some host =>
        let moved := Umm.bump { umm with host := host } adjust newSize
        match vmUnmap config.pgroot old.toNat oldSize.toNat umm.vm with
        | (none, vm) => (none, { moved with vm := vm })
        | (some (), vm) =>
            match vmMapPhys config.pgroot new.toNat newSize.toNat (duneVaToPa config.layout new)
              (protToPerm (protRead ||| protWrite)) vm with
            | (some 0, vm) => (some (.value new), { moved with vm := vm })
            | (_, vm) => (none, { moved with vm := vm })

def ummMremap (config : UmmConfig) (old : VirtAddr) (oldSize newSize : Size) (flags : BitVec 32)
    (new : VirtAddr) (will : HostWill) (umm : Umm) : Option UmmResult × Umm :=
  if ¬ memRefIsSafe old oldSize then (some (.error (-ummEacces)), umm)
  else if flags &&& mremapFixed ≠ 0 then
    if ¬ memRefIsSafe new newSize then (some (.error (-ummEacces)), umm)
    else ummMremapAt config old oldSize newSize flags new false will umm
  else if ¬ ummSpaceLeft umm.brkLen umm.mmapLen newSize then (some (.error (-ummEnomem)), umm)
  else ummMremapAt config old oldSize newSize flags (ummNextPos umm.mmapLen newSize) true will umm

/-- `umm_alloc_stack`. The value is what it writes to `stack_top`, and the last page of the
area stays unmapped. -/
def ummAllocStack (config : UmmConfig) (will : HostWill) (umm : Umm) : Option UmmResult × Umm :=
  let base := ummGetMapPos umm.mmapLen
  let top := base &&& ~~~ 0xfff#64
  if ¬ ummSpaceLeft umm.brkLen umm.mmapLen appStackSize then (some (.error (-ummEnomem)), umm)
  else
    match ummMmapAnom config (top - appStackSize + 0x1000#64) (appStackSize - 0x1000#64)
      (protRead ||| protWrite) false will umm with
    | (some (.value _), umm) =>
        (some (.value top), { umm with mmapLen := umm.mmapLen + (appStackSize + (base &&& 0xfff#64)) })
    | other => other

inductive UmmCall
  | brk (brk : VirtAddr)
  | mmap (addr : VirtAddr) (len : Size) (prot flags : BitVec 32) (fd : Int)
  | munmap (addr : VirtAddr) (len : Size)
  | mprotect (addr : VirtAddr) (len : Size) (prot : BitVec 32)
  | mremap (old : VirtAddr) (oldSize newSize : Size) (flags : BitVec 32) (new : VirtAddr)
  | shmat (segsz : Option Size) (addr : VirtAddr) (shmflg : BitVec 32)

def ummCall (config : UmmConfig) (call : UmmCall) (will : HostWill) (umm : Umm) :
    Option UmmResult × Umm :=
  match call with
  | .brk brk => ummBrk config brk will umm
  | .mmap addr len prot flags fd => ummMmap config addr len prot flags fd will umm
  | .munmap addr len => ummMunmap config addr len will umm
  | .mprotect addr len prot => ummMprotect config addr len prot will umm
  | .mremap old oldSize newSize flags new => ummMremap config old oldSize newSize flags new will umm
  | .shmat segsz addr shmflg => ummShmat config segsz addr shmflg will umm

/-- One call of the untrusted code that returns. -/
def ummStep (config : UmmConfig) (umm : Umm) (call : UmmCall × HostWill) : Option Umm :=
  match ummCall config call.1 call.2 umm with
  | (some _, next) => some next
  | (none, _) => none

end RdmaPaging
