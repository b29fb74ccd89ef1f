import Mathlib.Data.BitVec

/-!
The page pool of `page.c` and the page tables of `vm.c`. Physical and virtual addresses
of a page table coincide, so a table is named by its page address and an entry by its
table and index.

Every operation returns its result and the machine state. No result (`none`) is the
end of the process: a failed assertion or an access through a null pointer.
-/

namespace RdmaPaging

abbrev Ptent := BitVec 64

abbrev PhysAddr := BitVec 64

def pgshift : Nat := 12

def nptentries : Nat := 512

/-- The page number field of `va` at a level: `PDX(n, va)`. -/
def pdx (level va : Nat) : Nat := va / 2 ^ (pgshift + 9 * level) % nptentries

/-- `PDADDR(n, i)`. -/
def pdaddr (level index : Nat) : Nat := index * 2 ^ (pgshift + 9 * level)

def pteP : Ptent := 0x1#64
def pteW : Ptent := 0x2#64
def pteU : Ptent := 0x4#64
def ptePcd : Ptent := 0x10#64
def ptePs : Ptent := 0x80#64
def pteCow : Ptent := 0x200#64
def pteUsr3 : Ptent := 0x1000000000000000#64
def pteUsr2 : Ptent := 0x2000000000000000#64
def pteUsr1 : Ptent := 0x4000000000000000#64
def pteNx : Ptent := 0x8000000000000000#64

def pteDefFlags : Ptent := pteP ||| pteW ||| pteU

def pteAddr (pte : Ptent) : PhysAddr := pte &&& 0xffffffffff000#64

def pteFlags (pte : Ptent) : Ptent := pte &&& 0xfff0000000000fff#64

def ptePresent (pte : Ptent) : Bool := pteFlags pte &&& pteP ≠ 0

def pteBig (pte : Ptent) : Bool := pteFlags pte &&& ptePs ≠ 0

abbrev Perm := BitVec 32

def permR : Perm := 0x1#32
def permW : Perm := 0x2#32
def permX : Perm := 0x4#32
def permU : Perm := 0x8#32
def permUc : Perm := 0x10#32
def permCow : Perm := 0x20#32
def permBig : Perm := 0x100#32
def permBig1gb : Perm := 0x200#32
def permUsr1 : Perm := 0x1000#32
def permUsr2 : Perm := 0x2000#32
def permUsr3 : Perm := 0x3000#32

def Perm.has (perm flag : Perm) : Bool := perm &&& flag ≠ 0

/-- One conditional assignment of `get_pte_perm`. -/
def orIf (condition : Bool) (flag pte : Ptent) : Ptent := if condition then pte ||| flag else pte

def getPtePerm (perm : Perm) : Ptent :=
  orIf (perm.has permBig || perm.has permBig1gb) ptePs <|
  orIf (perm.has permUsr3) pteUsr3 <|
  orIf (perm.has permUsr2) pteUsr2 <|
  orIf (perm.has permUsr1) pteUsr1 <|
  orIf (perm.has permCow) pteCow <|
  orIf (perm.has permUc) ptePcd <|
  orIf (perm.has permU) pteU <|
  orIf (!perm.has permX) pteNx <|
  orIf (perm.has permW) pteW <|
  orIf (perm.has permR) pteP 0

/-! The page pool. -/

def growSizePages : Nat := 512

def pageBase : PhysAddr := 0x200000000#64

def maxPages : Nat := 2 ^ 20

/-- The pool. A page is its index in `pages`; the free list has its head first.
A reference count is a 64-bit counter that is taken not to wrap upwards. `mmapOk` says
which windows the host maps and `mapped` which it has mapped. `failed` and `putZero`
remember a null allocation and a put of an unreferenced page; no step reads them. -/
structure PagePool where
  numPages : Nat
  ref : Nat → Nat
  free : List Nat
  mmapOk : PhysAddr → Bool
  mapped : List PhysAddr
  failed : Bool
  putZero : Bool

/-- `num_pages * PGSIZE` is an `int`, widened when it is added to an address. -/
def poolBytes (numPages : Nat) : BitVec 64 := (BitVec.ofNat 32 (numPages * 4096)).signExtend 64

def pageToPa (page : Nat) : PhysAddr := pageBase + BitVec.ofNat 64 (page * 4096)

def paToPage (pa : PhysAddr) : Nat := ((pa - pageBase) >>> 12).toNat

def pageIsFromPool (pool : PagePool) (pa : PhysAddr) : Bool :=
  pageBase ≤ pa && pa < pageBase + poolBytes pool.numPages

/-- The indices from `first` on as `SLIST_INSERT_HEAD` leaves them: the last one first. -/
def insertedPages (first count : Nat) : List Nat := (List.range' first count).reverse

def growSize (pool : PagePool) : Option PagePool :=
  if pool.mmapOk (pageBase + poolBytes pool.numPages) then
    some { pool with
      ref := fun page =>
        if pool.numPages ≤ page ∧ page < pool.numPages + growSizePages then 0 else pool.ref page
      free := insertedPages pool.numPages growSizePages ++ pool.free
      numPages := pool.numPages + growSizePages
      mapped := pool.mapped ++ [pageBase + poolBytes pool.numPages] }
  else none

/-- `dune_page_get` with its assertion. -/
def pageGet (page : Nat) (pool : PagePool) : Option Unit × PagePool :=
  if page < pool.numPages then
    (some (), { pool with ref := Function.update pool.ref page (pool.ref page + 1) })
  else (none, pool)

/-- `dune_page_put`, with `dune_page_free` for a page that is no longer referenced. -/
def pagePut (page : Nat) (pool : PagePool) : Option Unit × PagePool :=
  if page < pool.numPages then
    let left := if pool.ref page = 0 then 2 ^ 64 - 1 else pool.ref page - 1
    (some (), { pool with
      ref := Function.update pool.ref page left
      free := if left = 0 then page :: pool.free else pool.free
      putZero := pool.putZero || pool.ref page = 0 })
  else (none, pool)

/-- The end of `dune_page_alloc`: take the first free page and reference it. -/
def takeFirst (pool : PagePool) : Option (Option Nat) × PagePool :=
  match pool.free with
  | [] => (none, pool)
  | page :: rest =>
      match pageGet page { pool with free := rest } with
      | (some (), taken) => (some (some page), taken)
      | (none, taken) => (none, taken)

/-- `dune_page_alloc`. -/
def pageAlloc (pool : PagePool) : Option (Option Nat) × PagePool :=
  match pool.free with
  | [] =>
      match growSize pool with
      | some grown => takeFirst grown
      | none => (some none, { pool with failed := true })
  | _ :: _ => takeFirst pool

/-- `dune_page_init`. The reference counts beyond the first pages are whatever `malloc`
returned. -/
def pageInit (mmapOk : PhysAddr → Bool) (ref : Nat → Nat) : Option PagePool :=
  if mmapOk pageBase then
    some {
      numPages := growSizePages
      ref := fun page => if page < growSizePages then 0 else ref page
      free := insertedPages 0 growSizePages
      mmapOk := mmapOk
      mapped := [pageBase]
      failed := false
      putZero := false }
  else none

/-! Page tables. -/

/-- The page pool and the words of every page that may serve as a page table. -/
structure Vm where
  pool : PagePool
  mem : PhysAddr → Nat → Ptent

/-- A `ptent_t *`: an entry of a table. -/
structure PteRef where
  dir : PhysAddr
  index : Nat

inductive Create
  | none
  | normal
  | big
  | big1gb
  deriving DecidableEq

def enomem : Int := 12
def efault : Int := 14
def einval : Int := 22

abbrev PageWalkCb := PteRef → Nat → Vm → Option Int × Vm

def Vm.setPte (vm : Vm) (slot : PteRef) (pte : Ptent) : Vm :=
  { vm with mem := fun dir index =>
      if dir = slot.dir ∧ index = slot.index then pte else vm.mem dir index }

/-- `memset(page, 0, PGSIZE)`. -/
def Vm.clearPage (vm : Vm) (page : PhysAddr) : Vm :=
  { vm with mem := fun dir index => if dir = page then 0 else vm.mem dir index }

def allocPage (vm : Vm) : Option (Option PhysAddr) × Vm :=
  match pageAlloc vm.pool with
  | (some (some page), pool) => (some (some (pageToPa page)), { vm with pool := pool })
  | (some none, pool) => (some none, { vm with pool := pool })
  | (none, pool) => (none, { vm with pool := pool })

def putPage (page : PhysAddr) (vm : Vm) : Option Unit × Vm :=
  match pagePut (paToPage page) vm.pool with
  | (done, pool) => (done, { vm with pool := pool })

/-- Clear a fresh page and enter it as a page table. -/
def installTable (vm : Vm) (slot : PteRef) (page : PhysAddr) : Vm :=
  (vm.clearPage page).setPte slot (pteAddr page ||| pteDefFlags)

/-- The loop of `__dune_vm_page_walk`: stop at the first non-zero result. -/
def walkLoop (body : Nat → Vm → Option Int × Vm) : List Nat → Vm → Option Int × Vm
  | [], vm => (some 0, vm)
  | index :: rest, vm =>
      match body index vm with
      | (some 0, next) => walkLoop body rest next
      | stopped => stopped

def walkIndices (level startVa endVa : Nat) : List Nat :=
  List.range' (pdx level startVa) (pdx level endVa + 1 - pdx level startVa)

/-- `base_va + PDADDR(level, i)`. -/
def curVa (level startVa index : Nat) : Nat :=
  startVa / 2 ^ (pgshift + 9 * (level + 1)) * 2 ^ (pgshift + 9 * (level + 1)) + pdaddr level index

/-- An entry of level 1 or 2 that the walk treats as a leaf. -/
def bigSlot (level : Nat) (create : Create) (pte : Ptent) : Bool :=
  (level = 1 && (create = .big || pteBig pte)) || (level = 2 && (create = .big1gb || pteBig pte))

/-- One entry of a table of level 0. -/
def walkLeaf (cb : PageWalkCb) (create : Create) (dir : PhysAddr) (startVa index : Nat) (vm : Vm) :
    Option Int × Vm :=
  if create = .normal ∨ vm.mem dir index ≠ 0 then cb ⟨dir, index⟩ (curVa 0 startVa index) vm
  else (some 0, vm)

/-- One entry of a table of a higher level; `below` walks the table it names. -/
def walkEntry (cb : PageWalkCb) (create : Create) (level : Nat)
    (below : PhysAddr → Nat → Nat → Vm → Option Int × Vm) (dir : PhysAddr) (startVa endVa : Nat)
    (index : Nat) (vm : Vm) : Option Int × Vm :=
  let cur := curVa level startVa index
  let nStartVa := if index = pdx level startVa then startVa else cur
  let nEndVa := if index = pdx level endVa then endVa else (cur + pdaddr level 1 - 1) % 2 ^ 64
  if bigSlot level create (vm.mem dir index) then cb ⟨dir, index⟩ cur vm
  else if ptePresent (vm.mem dir index) then
    below (pteAddr (vm.mem dir index)) nStartVa nEndVa vm
  else if create = .none then (some 0, vm)
  else
    match allocPage vm with
    | (some (some page), next) =>
        let installed := installTable next ⟨dir, index⟩ page
        below (pteAddr (installed.mem dir index)) nStartVa nEndVa installed
    | (some none, next) => (some (-enomem), next)
    | (none, next) => (none, next)

/-- `__dune_vm_page_walk`. -/
def pageWalk (cb : PageWalkCb) (create : Create) : Nat → PhysAddr → Nat → Nat → Vm → Option Int × Vm
  | 0, dir, startVa, endVa, vm =>
      walkLoop (walkLeaf cb create dir startVa) (walkIndices 0 startVa endVa) vm
  | level + 1, dir, startVa, endVa, vm =>
      walkLoop (walkEntry cb create (level + 1) (pageWalk cb create level) dir startVa endVa)
        (walkIndices (level + 1) startVa endVa) vm

/-- One level of `dune_vm_lookup`: the table that an entry names, made when asked. The
page is cleared before it is checked, so a failed allocation ends the process. -/
def lookupTable (create : Create) (slot : PteRef) (vm : Vm) : Option (Option PhysAddr) × Vm :=
  if ptePresent (vm.mem slot.dir slot.index) then
    (some (some (pteAddr (vm.mem slot.dir slot.index))), vm)
  else if create = .none then (some none, vm)
  else
    match allocPage vm with
    | (some (some page), next) => (some (some page), installTable next slot page)
    | (some none, next) => (none, next)
    | (none, next) => (none, next)

/-- Go on with the table that an entry names, unless there is none or the process ended. -/
def lookupThrough (create : Create) (slot : PteRef)
    (go : PhysAddr → Vm → Option (Option PteRef) × Vm) (vm : Vm) : Option (Option PteRef) × Vm :=
  match lookupTable create slot vm with
  | (some (some table), next) => go table next
  | (some none, next) => (some none, next)
  | (none, next) => (none, next)

/-- An entry of level 1 or 2 at which `dune_vm_lookup` stops. -/
def presentBig (pte : Ptent) : Bool := ptePresent pte && pteBig pte

/-- `dune_vm_lookup`. The result `none` is `-ENOENT`. -/
def vmLookup (root : PhysAddr) (va : Nat) (create : Create) (vm : Vm) :
    Option (Option PteRef) × Vm :=
  lookupThrough create ⟨root, pdx 3 va⟩ (fun pdpte vm =>
    if presentBig (vm.mem pdpte (pdx 2 va)) then (some (some ⟨pdpte, pdx 2 va⟩), vm)
    else lookupThrough create ⟨pdpte, pdx 2 va⟩ (fun pde vm =>
      if presentBig (vm.mem pde (pdx 1 va)) then (some (some ⟨pde, pdx 1 va⟩), vm)
      else lookupThrough create ⟨pde, pdx 1 va⟩ (fun pte vm =>
        (some (some ⟨pte, pdx 0 va⟩), vm)) vm) vm) vm

/-- The last byte of a range: `va + len - 1`. -/
def lastVa (va len : Nat) : Nat := (BitVec.ofNat 64 va + BitVec.ofNat 64 len - 1#64).toNat

def mprotectHelper (perm : Ptent) : PageWalkCb := fun slot _ vm =>
  let pte := vm.mem slot.dir slot.index
  (some 0, vm.setPte slot (pteAddr pte ||| (pteFlags pte &&& ptePs) ||| perm))

def vmMprotect (root : PhysAddr) (va len : Nat) (perm : Perm) (vm : Vm) : Option Int × Vm :=
  if ¬ perm.has permR ∧ perm.has permW then (some (-einval), vm)
  else
    let allowed := if perm.has permR then perm else 0
    pageWalk (mprotectHelper (getPtePerm allowed)) .none 3 root va (lastVa va len) vm

def mapPhysHelper (perm : Ptent) (vaBase : Nat) (paBase : PhysAddr) : PageWalkCb := fun slot va vm =>
  (some 0, vm.setPte slot
    (pteAddr (BitVec.ofNat 64 va - BitVec.ofNat 64 vaBase + paBase) ||| perm))

def vmMapPhys (root : PhysAddr) (va len : Nat) (pa : PhysAddr) (perm : Perm) (vm : Vm) :
    Option Int × Vm :=
  let create := if perm.has permBig then .big else if perm.has permBig1gb then .big1gb else .normal
  pageWalk (mapPhysHelper (getPtePerm perm) va pa) create 3 root va (lastVa va len) vm

def mapPagesHelper (perm : Ptent) : PageWalkCb := fun slot _ vm =>
  match pageAlloc vm.pool with
  | (some (some page), pool) =>
      (some 0, Vm.setPte { vm with pool := pool } slot (pteAddr (pageToPa page) ||| perm))
  | (some none, pool) => (some (-enomem), { vm with pool := pool })
  | (none, pool) => (none, { vm with pool := pool })

def vmMapPages (root : PhysAddr) (va len : Nat) (perm : Perm) (vm : Vm) : Option Int × Vm :=
  if ¬ perm.has permR ∧ perm.has (~~~ permR) then (some (-einval), vm)
  else pageWalk (mapPagesHelper (getPtePerm perm)) .normal 3 root va (lastVa va len) vm

def freeHelper : PageWalkCb := fun slot _ vm =>
  let pa := pteAddr (vm.mem slot.dir slot.index)
  if pageIsFromPool vm.pool pa then
    match pagePut (paToPage pa) vm.pool with
    | (some (), pool) => (some 0, Vm.setPte { vm with pool := pool } slot 0)
    | (none, pool) => (none, { vm with pool := pool })
  else (some 0, vm.setPte slot 0)

def vaStart : Nat := 0

def vaEnd : Nat := 2 ^ 64 - 1

def vmUnmap (root : PhysAddr) (va len : Nat) (vm : Vm) : Option Unit × Vm :=
  match pageWalk freeHelper .none 3 root va (lastVa va len) vm with
  | (some _, vm) => (some (), vm)
  | (none, vm) => (none, vm)

/-- `dune_vm_free`: two walks that take the root for a table of level 2 and of level 1. -/
def vmFree (root : PhysAddr) (vm : Vm) : Option Unit × Vm :=
  match pageWalk freeHelper .none 2 root vaStart vaEnd vm with
  | (some _, vm) =>
      match pageWalk freeHelper .none 1 root vaStart vaEnd vm with
      | (some _, vm) => putPage root vm
      | (none, vm) => (none, vm)
  | (none, vm) => (none, vm)

def enoent : Int := 2

/-- The end of `__dune_vm_clone_helper`: reference a page of the pool and copy the entry. -/
def cloneEntry (pg : Nat) (pte : Ptent) (newPte : PteRef) (vm : Vm) : Option Int × Vm :=
  if pageIsFromPool vm.pool (pteAddr pte) then
    match pageGet pg vm.pool with
    | (some (), pool) => (some 0, Vm.setPte { vm with pool := pool } newPte pte)
    | (none, pool) => (none, { vm with pool := pool })
  else (some 0, vm.setPte newPte pte)

def cloneHelper (newRoot : PhysAddr) : PageWalkCb := fun slot va vm =>
  let pg := paToPage (pteAddr (vm.mem slot.dir slot.index))
  match vmLookup newRoot va .normal vm with
  | (some (some newPte), next) => cloneEntry pg (next.mem slot.dir slot.index) newPte next
  | (some none, next) => (some (-enoent), next)
  | (none, next) => (none, next)

/-- `dune_vm_clone`. The result `none` is a null pointer. -/
def vmClone (root : PhysAddr) (vm : Vm) : Option (Option PhysAddr) × Vm :=
  match allocPage vm with
  | (some (some newRoot), vm) =>
      match pageWalk (cloneHelper newRoot) .none 3 root vaStart vaEnd (vm.clearPage newRoot) with
      | (some ret, vm) =>
          if ret < 0 then
            match vmFree newRoot vm with
            | (some (), vm) => (some none, vm)
            | (none, vm) => (none, vm)
          else (some (some newRoot), vm)
      | (none, vm) => (none, vm)
  | (some none, vm) => (none, vm)
  | (none, vm) => (none, vm)

/-! What the processor makes of a page table. -/

/-- A translation: the physical address, the flags of the leaf entry, and the rights that
all entries on the way leave. -/
structure Translation where
  pa : PhysAddr
  flags : Ptent
  writable : Bool
  user : Bool
  noExecute : Bool
  deriving DecidableEq

def Ptent.has (pte flag : Ptent) : Bool := pte &&& flag ≠ 0

/-- The translation by a leaf that maps `2 ^ shift` bytes, below the entries `above`. -/
def leafTranslation (above : List Ptent) (leaf : Ptent) (shift va : Nat) : Translation where
  pa := ((pteAddr leaf) >>> shift) <<< shift + BitVec.ofNat 64 (va % 2 ^ shift)
  flags := pteFlags leaf
  writable := (leaf :: above).all fun pte => Ptent.has pte pteW
  user := (leaf :: above).all fun pte => Ptent.has pte pteU
  noExecute := (leaf :: above).any fun pte => Ptent.has pte pteNx

/-- The x86-64 walk for `va` from a table of a level, below the entries `above`. The page
size bit ends it in the levels 1 and 2 and is reserved in level 3. -/
@[grind =] def translateFrom (mem : PhysAddr → Nat → Ptent) : Nat → PhysAddr → List Ptent → Nat →
    Option Translation
  | 0, dir, above, va =>
      let pte := mem dir (pdx 0 va)
      if ptePresent pte then some (leafTranslation above pte pgshift va) else none
  | level + 1, dir, above, va =>
      let pte := mem dir (pdx (level + 1) va)
      if ¬ ptePresent pte then none
      else if bigSlot (level + 1) .none pte then
        some (leafTranslation above pte (pgshift + 9 * (level + 1)) va)
      else if pteBig pte then none
      else translateFrom mem level (pteAddr pte) (pte :: above) va

/-- The x86-64 translation of `va`. -/
def translate (mem : PhysAddr → Nat → Ptent) (root : PhysAddr) (va : Nat) : Option Translation :=
  translateFrom mem 3 root [] va

end RdmaPaging
