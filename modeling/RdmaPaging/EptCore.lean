import RdmaPaging.DuneAddress
import RdmaPaging.Machine
import RdmaPaging.RadixLeaf

/-!
The extended page tables of `ept.c`: faults, the callbacks of the MMU notifier, and the
start and the end of an EPT. A table is named by the physical address of its page.

The host decides what `get_user_pages_fast`, `follow_pfn` and `__get_free_page` return, so
the actions carry their results. The invalidation of cached translations is left out.
-/

namespace RdmaPaging

abbrev Epte := BitVec 64

def epteRead : Epte := 0x1#64
def epteWrite : Epte := 0x2#64
def epteExec : Epte := 0x4#64
def epteIpat : Epte := 0x40#64
def epteSz : Epte := 0x80#64
def epteA : Epte := 0x100#64
def epteD : Epte := 0x200#64
def eptePfnmap : Epte := 0x400#64

def epteType (memoryType : BitVec 64) : Epte := (memoryType &&& 0x7#64) <<< 3

def epteTypeUc : BitVec 64 := 0#64
def epteTypeWb : BitVec 64 := 6#64

def epteNone : Epte := 0#64

def epteFull : Epte := epteRead ||| epteWrite ||| epteExec

def epteAddr (epte : Epte) : PhysAddr := epte &&& ~~~ 0xfff#64

def eptePresent (epte : Epte) : Bool := epte &&& epteFull ≠ 0

def epteBig (epte : Epte) : Bool := epte &&& epteSz ≠ 0

/-- A page of the host, by its physical address. -/
abbrev PageFrame := { page : PhysAddr // epteAddr page = page }

/-- What `__get_free_page` returns when an entry of a level needs a table. -/
abbrev Supply := Nat → Option PageFrame

/-- The EPT of a VCPU. `refs` are the references it holds on pages of the host, `taken` and
`freed` the pages it got and gave back for tables. -/
structure Ept where
  root : PhysAddr
  mem : PhysAddr → Nat → Epte
  refs : PhysAddr → Int
  dirty : PhysAddr → Bool
  taken : List PhysAddr
  freed : List PhysAddr

def Ept.setEpte (ept : Ept) (slot : PteRef) (epte : Epte) : Ept :=
  { ept with mem := fun dir index =>
      if dir = slot.dir ∧ index = slot.index then epte else ept.mem dir index }

def Ept.getPage (ept : Ept) (page : PhysAddr) : Ept :=
  { ept with refs := Function.update ept.refs page (ept.refs page + 1) }

def Ept.putPage (ept : Ept) (page : PhysAddr) : Ept :=
  { ept with refs := Function.update ept.refs page (ept.refs page - 1) }

def Ept.freePage (ept : Ept) (page : PhysAddr) : Ept :=
  { ept with freed := page :: ept.freed }

/-- A cleared page, entered as a table. -/
def Ept.newTable (ept : Ept) (slot : PteRef) (page : PhysAddr) : Ept :=
  Ept.setEpte { ept with
    mem := fun dir index => if dir = page then 0 else ept.mem dir index
    taken := page :: ept.taken } slot (epteAddr page ||| epteFull)

/-! The lookup. -/

/-- The entry of a level on the way, with a new table if it is empty and one is wanted. -/
def eptEnter (supply : Supply) (create : Bool) (level : Nat) (slot : PteRef) (ept : Ept) :
    Except Int Unit × Ept :=
  if eptePresent (ept.mem slot.dir slot.index) then (.ok (), ept)
  else if ¬ create then (.error (-enoent), ept)
  else
    match supply level with
    | none => (.error (-enomem), ept)
    | some page => (.ok (), ept.newTable slot page)

/-- The loop of `ept_lookup_gpa`, at the table `dir` of a level. Every level differs from 1
or from 2, so a big entry always ends it with an error. -/
def eptLookupFrom (supply : Supply) (create : Bool) (gpa : PhysAddr) (level : Nat) :
    Nat → PhysAddr → Ept → Except Int PteRef × Ept
  | 0, dir, ept => (.ok ⟨dir, pdx level gpa.toNat⟩, ept)
  | i + 1, dir, ept =>
      if level < i + 1 then
        match eptEnter supply create (i + 1) ⟨dir, pdx (i + 1) gpa.toNat⟩ ept with
        | (.error ret, next) => (.error ret, next)
        | (.ok (), next) =>
            if epteBig (next.mem dir (pdx (i + 1) gpa.toNat)) then
              if i + 1 ≠ 1 ∨ i + 1 ≠ 2 then (.error (-einval), next)
              else (.ok ⟨dir, pdx (i + 1) gpa.toNat⟩, next)
            else
              eptLookupFrom supply create gpa level i
                (epteAddr (next.mem dir (pdx (i + 1) gpa.toNat))) next
      else (.ok ⟨dir, pdx level gpa.toNat⟩, ept)

def eptLookupGpa (supply : Supply) (gpa : PhysAddr) (level : Nat) (create : Bool) (ept : Ept) :
    Except Int PteRef × Ept :=
  eptLookupFrom supply create gpa level 3 ept.root ept

/-! Removal of entries. -/

/-- `free_ept_page`. -/
def freeEptPage (epte : Epte) (ept : Ept) : Ept :=
  if epte &&& eptePfnmap ≠ 0 then ept
  else
    { ept.putPage (epteAddr epte) with
      dirty := if epte &&& epteWrite ≠ 0 then Function.update ept.dirty (epteAddr epte) true
        else ept.dirty }

/-- The loops over the entries of a table and over the tables below it, which `vmx_free_ept`,
`ept_clear_l2_epte` and `ept_clear_l1_epte` share. Entries of the root are never big. -/
def freeTable : Nat → PhysAddr → Ept → Ept
  | 0, table, ept =>
      ((List.range nptentries).foldl (fun ept index =>
        if eptePresent (ept.mem table index) then freeEptPage (ept.mem table index) ept
        else ept) ept).freePage table
  | level + 1, table, ept =>
      ((List.range nptentries).foldl (fun ept index =>
        if ¬ eptePresent (ept.mem table index) then ept
        else if level + 1 ≠ 3 ∧ epteBig (ept.mem table index) then
          freeEptPage (ept.mem table index) ept
        else freeTable level (epteAddr (ept.mem table index)) ept) ept).freePage table

def vmxFreeEpt (ept : Ept) : Ept := freeTable 3 ept.root ept

def eptClearEpte (slot : PteRef) (ept : Ept) : Int × Ept :=
  if ept.mem slot.dir slot.index = epteNone then (0, ept)
  else (1, (freeEptPage (ept.mem slot.dir slot.index) ept).setEpte slot epteNone)

/-- Clear an entry that names a table of a level. -/
def eptClearTableEpte (level : Nat) (slot : PteRef) (ept : Ept) : Int × Ept :=
  if ept.mem slot.dir slot.index = epteNone then (0, ept)
  else
    (1, (freeTable level (epteAddr (ept.mem slot.dir slot.index)) ept).setEpte slot epteNone)

def eptClearL1Epte : PteRef → Ept → Int × Ept := eptClearTableEpte 0

def eptClearL2Epte : PteRef → Ept → Int × Ept := eptClearTableEpte 1

/-! Faults. -/

structure EptConfig where
  physBits : Nat
  mm : MmStruct
  adEnabled : Bool

/-- A page that `get_user_pages_fast` returned, with its compound page. -/
structure GupPage where
  page : PageFrame
  head : PageFrame
  order : Nat

/-- What `ept_set_pfnmap_epte` finds in the address space at `hva`. -/
inductive PfnSource
  | noVma
  | ordinary
  | unfollowed (ret : Int)
  | pfn (number : BitVec 64)

def followPfn : PfnSource → Except Int (BitVec 64)
  | .noVma | .ordinary => .error (-efault)
  | .unfollowed ret => .error ret
  | .pfn number => .ok number

def eptLeafFlags (adEnabled makeWrite : Bool) (flags : Epte) : Epte :=
  orIf (adEnabled && makeWrite) epteD <|
  orIf adEnabled epteA <|
  orIf makeWrite epteWrite flags

def pfnmapFlags : Epte := epteRead ||| epteType epteTypeUc ||| epteIpat ||| eptePfnmap

def pageFlags : Epte := epteRead ||| epteExec ||| epteType epteTypeWb ||| epteIpat

def eptSetPfnmapEpte (config : EptConfig) (makeWrite : Bool) (gpa : PhysAddr) (source : PfnSource)
    (supply : Supply) (ept : Ept) : Int × Ept :=
  match followPfn source with
  | .error ret => (ret, ept)
  | .ok number =>
      match eptLookupGpa supply gpa 0 true ept with
      | (.error ret, next) => (ret, next)
      | (.ok slot, next) =>
          let cleared :=
            if eptePresent (next.mem slot.dir slot.index) then (eptClearEpte slot next).2 else next
          (0, cleared.setEpte slot
            (epteAddr (number <<< 12) ||| eptLeafFlags config.adEnabled makeWrite pfnmapFlags))

def GupPage.level (page : GupPage) : Nat :=
  if page.order + 12 = 30 then 2 else if page.order + 12 = 21 then 1 else 0

/-- Empty the entry that a page of a level will take. -/
def eptClearOld (level : Nat) (slot : PteRef) (ept : Ept) : Ept :=
  if eptePresent (ept.mem slot.dir slot.index) then
    if ¬ epteBig (ept.mem slot.dir slot.index) ∧ level = 2 then (eptClearL2Epte slot ept).2
    else if ¬ epteBig (ept.mem slot.dir slot.index) ∧ level = 1 then (eptClearL1Epte slot ept).2
    else (eptClearEpte slot ept).2
  else ept

/-- The page and the flags that a fault enters. A huge page is entered by its head, to which
the reference moves. -/
def eptEnterPage (config : EptConfig) (makeWrite : Bool) (page : GupPage) (slot : PteRef)
    (ept : Ept) : Ept :=
  let flags := eptLeafFlags config.adEnabled makeWrite pageFlags
  if page.level = 0 then ept.setEpte slot (epteAddr page.page ||| flags)
  else ((ept.getPage page.head).putPage page.page).setEpte slot
    (epteAddr page.head ||| (flags ||| epteSz))

/-- The part of `ept_set_epte` under `ept_lock`, for a page that is already referenced. -/
def eptInstall (config : EptConfig) (makeWrite : Bool) (gpa : PhysAddr) (page : GupPage)
    (supply : Supply) (ept : Ept) : Int × Ept :=
  match eptLookupGpa supply gpa page.level true ept with
  | (.error ret, next) => (ret, next.putPage page.page)
  | (.ok slot, next) =>
      (0, eptEnterPage config makeWrite page slot (eptClearOld page.level slot next))

def eptSetEpte (config : EptConfig) (makeWrite : Bool) (gpa : PhysAddr) (gup : Option GupPage)
    (source : PfnSource) (supply : Supply) (ept : Ept) : Int × Ept :=
  match gup with
  | none => eptSetPfnmapEpte config makeWrite gpa source supply ept
  | some page => eptInstall config makeWrite gpa page supply (ept.getPage page.page)

def vmxEptFaultWrite : BitVec 32 := 0x2#32

def vmxDoEptFault (config : EptConfig) (gpa : PhysAddr) (faultFlags : BitVec 32)
    (gup : Option GupPage) (source : PfnSource) (supply : Supply) (ept : Ept) : Int × Ept :=
  if gpaToHva config.physBits config.mm gpa = addrInval then (-einval, ept)
  else eptSetEpte config (faultFlags &&& vmxEptFaultWrite ≠ 0) gpa gup source supply ept

/-! The callbacks of the MMU notifier. -/

/-- The entry of level 0 for an address of the process, if the lookup finds one. -/
def eptFind (config : EptConfig) (addr : VirtAddr) (ept : Ept) : Except Int PteRef :=
  let gpa := hvaToGpa config.physBits config.mm addr
  if gpa = addrInval then .error (-einval)
  else (eptLookupGpa (fun _ => none) gpa 0 false ept).1

/-- The end of `ept_invalidate_page`, after its lookup. -/
def clearFound (found : Except Int PteRef) (ept : Ept) : Int × Ept :=
  match found with
  | .error _ => (0, ept)
  | .ok slot => eptClearEpte slot ept

def eptInvalidatePage (config : EptConfig) (addr : VirtAddr) (ept : Ept) : Int × Ept :=
  clearFound (eptFind config addr ept) ept

def mappedFound : Except Int PteRef → Int
  | .error _ => 0
  | .ok _ => 1

def eptCheckPageMapped (config : EptConfig) (addr : VirtAddr) (ept : Ept) : Int :=
  mappedFound (eptFind config addr ept)

/-- The end of `ept_check_page_accessed`. `flush & accessed` joins the truth value 1 with the
bit 0x100. -/
def accessedFound (found : Except Int PteRef) (flush : Bool) (ept : Ept) : Int × Ept :=
  match found with
  | .error _ => (0, ept)
  | .ok slot =>
      let accessed := ept.mem slot.dir slot.index &&& epteA
      let flushWord : BitVec 64 := if flush then 1#64 else 0#64
      (accessed.toNat,
        if flushWord &&& accessed ≠ 0 then
          ept.setEpte slot (ept.mem slot.dir slot.index &&& ~~~ epteA)
        else ept)

def eptCheckPageAccessed (config : EptConfig) (addr : VirtAddr) (flush : Bool) (ept : Ept) :
    Int × Ept :=
  accessedFound (eptFind config addr ept) flush ept

def hugePageSize : VirtAddr := 0x200000#64

/-- One pass of the loop of `ept_mmu_notifier_invalidate_range_start`, after its lookup. -/
def rangePass (found : Except Int PteRef) (pos : VirtAddr) (ept : Ept) : VirtAddr × Ept :=
  match found with
  | .ok slot =>
      (pos + (if epteBig (ept.mem slot.dir slot.index) then hugePageSize else 0x1000#64),
        (eptClearEpte slot ept).2)
  | .error _ => (pos + 0x1000#64, ept)

/-- The loop of `ept_mmu_notifier_invalidate_range_start`; no result if it has not ended
after `fuel` passes. -/
def invalidateLoop (config : EptConfig) (stop : VirtAddr) : Nat → VirtAddr × Ept → Option Ept
  | 0, _ => none
  | fuel + 1, (pos, ept) =>
      if pos < stop then
        invalidateLoop config stop fuel (rangePass (eptFind config pos ept) pos ept)
      else some ept

/-- Each pass moves on by a page at least, so more passes than pages are an endless loop. -/
def rangePasses : Nat := 2 ^ 52 + 1

def eptMmuNotifierInvalidateRangeStart (config : EptConfig) (start stop : VirtAddr) (ept : Ept) :
    Option Ept :=
  invalidateLoop config stop rangePasses (start, ept)

/-- The result of `ept_invalidate_page` is not used. -/
def eptMmuNotifierInvalidatePage : EptConfig → VirtAddr → Ept → Int × Ept := eptInvalidatePage

def eptMmuNotifierChangePte : EptConfig → VirtAddr → Ept → Int × Ept := eptInvalidatePage

def eptMmuNotifierClearFlushYoung (config : EptConfig) (addr : VirtAddr) (ept : Ept) : Int × Ept :=
  if ¬ config.adEnabled then eptInvalidatePage config addr ept
  else eptCheckPageAccessed config addr true ept

def eptMmuNotifierTestYoung (config : EptConfig) (addr : VirtAddr) (ept : Ept) : Int × Ept :=
  if ¬ config.adEnabled then (eptCheckPageMapped config addr ept, ept)
  else eptCheckPageAccessed config addr false ept

/-! The start, the end and the steps between. -/

/-- `vmx_init_ept`. What the other pages hold is not known. -/
def vmxInitEpt (mem : PhysAddr → Nat → Epte) (page : Option PageFrame) : Except Int Ept :=
  match page with
  | none => .error (-enomem)
  | some root => .ok {
      root := root
      mem := fun dir index => if dir = root then 0 else mem dir index
      refs := fun _ => 0
      dirty := fun _ => false
      taken := [root.val]
      freed := [] }

/-- `vmx_destroy_ept`, after the notifier is unregistered. -/
def vmxDestroyEpt (ept : Ept) : Ept := vmxFreeEpt ept

inductive EptAction
  | fault (gpa : PhysAddr) (faultFlags : BitVec 32) (gup : Option GupPage) (source : PfnSource)
      (supply : Supply)
  | invalidatePage (addr : VirtAddr)
  | invalidateRangeStart (start stop : VirtAddr)
  | changePte (addr : VirtAddr)
  | clearFlushYoung (addr : VirtAddr)
  | testYoung (addr : VirtAddr)

def eptStep (config : EptConfig) (ept : Ept) : EptAction → Option Ept
  | .fault gpa faultFlags gup source supply =>
      some (vmxDoEptFault config gpa faultFlags gup source supply ept).2
  | .invalidatePage addr => some (eptMmuNotifierInvalidatePage config addr ept).2
  | .invalidateRangeStart start stop => eptMmuNotifierInvalidateRangeStart config start stop ept
  | .changePte addr => some (eptMmuNotifierChangePte config addr ept).2
  | .clearFlushYoung addr => some (eptMmuNotifierClearFlushYoung config addr ept).2
  | .testYoung addr => some (eptMmuNotifierTestYoung config addr ept).2

/-- The kernel gives out pages that are not in use, and no page twice. -/
structure Fresh (ept : Ept) (supply : Supply) : Prop where
  unused : ∀ level page, supply level = some page →
    ept.taken.count page.val = ept.freed.count page.val
  apart : ∀ level other page, supply level = some page → supply other = some page → level = other

def eptGuard (ept : Ept) : EptAction → Prop
  | .fault _ _ _ _ supply => Fresh ept supply
  | _ => True

/-! What the processor makes of an EPT. -/

/-- The table that an entry of a table of level `level + 1` names. -/
def eptTable (level : Nat) (epte : Epte) : Option PhysAddr :=
  if eptePresent epte then
    if epteBig epte ∧ level + 1 ≠ 3 then none else some (epteAddr epte)
  else none

/-- The way that a guest-physical address takes through the tables. -/
def gpaRoute (gpa : Nat) : Nat → Nat := fun level => pdx level gpa

/-- The entry at which the walk for a guest-physical address ends, with its level. -/
def Ept.walk (ept : Ept) (gpa : Nat) : Nat × Epte :=
  RadixTree.leafAt eptTable ept.mem (gpaRoute gpa) 3 ept.root

/-- The present entry that maps a guest-physical address, with its level. -/
def Ept.leaf (ept : Ept) (gpa : Nat) : Option (Nat × Epte) :=
  if eptePresent (ept.walk gpa).2 then some (ept.walk gpa) else none

end RdmaPaging
