import RdmaPaging.PoolRuns
import RdmaPaging.VmTranslation

/-!
Copy-on-write faults: `dune_vm_default_pgflt_handler`. The processor reports a write to a
present entry as a protection violation, and that is what the handler's assertion excludes.
The code behind the assertion resolves such a fault.
-/

namespace RdmaPaging

open RadixTree

abbrev FaultCode := BitVec 64

def fecP : FaultCode := 0x1#64
def fecW : FaultCode := 0x2#64
def fecRsv : FaultCode := 0x8#64

def FaultCode.has (fec flag : FaultCode) : Bool := fec &&& flag ≠ 0

/-- `PGADDR(addr)`. -/
def pgAddr (addr : Nat) : Nat := addr / 2 ^ pgshift * 2 ^ pgshift

/-- How the handler ends: it returns to the access, the process ends at an assertion or a null
pointer, or its own read of the page faults, time and again. -/
inductive FaultEnd
  | returned
  | aborted
  | refaults
  deriving DecidableEq

/-- The flags of the entry without `PTE_COW` and with `PTE_W`. -/
def cowPerm (pte : Ptent) : Ptent := (pteFlags pte &&& ~~~ pteCow) ||| pteW

/-- `memcpy(newPage, (void *)PGADDR(addr), PGSIZE)`, if the address is mapped. -/
def copyPage (pgroot newPage : PhysAddr) (addr : Nat) (vm : Vm) : Option Vm :=
  match translate vm.mem pgroot (pgAddr addr) with
  | some source => some { vm with mem := fun dir index =>
      if dir = newPage then vm.mem source.pa index else vm.mem dir index }
  | none => none

/-- The end of the handler: put the old page and enter the new one. -/
def mapCopy (slot : PteRef) (newPage : PhysAddr) (pg : Nat) (perm : Ptent) (vm : Vm) : FaultEnd × Vm :=
  if pageIsFromPool vm.pool (pteAddr (vm.mem slot.dir slot.index)) then
    match pagePut pg vm.pool with
    | (some (), pool) =>
        (.returned, Vm.setPte { vm with pool := pool } slot (pteAddr newPage ||| perm))
    | (none, pool) => (.aborted, { vm with pool := pool })
  else (.returned, vm.setPte slot (pteAddr newPage ||| perm))

/-- The branch of the handler for a write to an entry with `PTE_COW`. -/
def resolveCow (pgroot : PhysAddr) (addr : Nat) (slot : PteRef) (vm : Vm) : FaultEnd × Vm :=
  let pte := vm.mem slot.dir slot.index
  let pg := paToPage (pteAddr pte)
  if pageIsFromPool vm.pool (pteAddr pte) && vm.pool.ref pg = 1 then
    (.returned, vm.setPte slot (pteAddr pte ||| cowPerm pte))
  else
    match allocPage vm with
    | (some (some newPage), next) =>
        match copyPage pgroot newPage addr next with
        | some copied => mapCopy slot newPage pg (cowPerm pte) copied
        | none => (.refaults, next)
    | (some none, next) => (.aborted, next)
    | (none, next) => (.aborted, next)

/-- `dune_vm_default_pgflt_handler`. -/
def vmDefaultPgfltHandler (pgroot : PhysAddr) (addr : Nat) (fec : FaultCode) (vm : Vm) :
    FaultEnd × Vm :=
  if FaultCode.has fec (fecP ||| fecRsv) then (.aborted, vm)
  else
    match vmLookup pgroot addr .none vm with
    | (some (some slot), next) =>
        if FaultCode.has fec fecW && Ptent.has (next.mem slot.dir slot.index) pteCow then
          resolveCow pgroot addr slot next
        else (.returned, next)
    | (some none, next) => (.aborted, next)
    | (none, next) => (.aborted, next)

/-- A root maps a page of the pool at an address, through a 4 KB entry with `PTE_COW`. -/
structure MapsCow (mem : PhysAddr → Nat → Ptent) (page : Nat) (root : PhysAddr) (va : Nat)
    (table : PhysAddr) : Prop where
  leads : leafTable mem root va = some table
  names : pteAddr (mem table (pdx 0 va)) = pageToPa page
  cow : Ptent.has (mem table (pdx 0 va)) pteCow = true

/-- A write fault at an address of `pgroot`, where it shares a page copy-on-write. -/
structure CowFault (vm : Vm) (page : Nat) (sharers : List (PhysAddr × Nat)) (pgroot : PhysAddr)
    (addr : Nat) (fec : FaultCode) (table : PhysAddr) : Prop where
  inPool : page < vm.pool.numPages
  maps : MapsCow vm.mem page pgroot addr table
  shares : ∀ sharer ∈ sharers, ∃ dir, MapsCow vm.mem page sharer.1 sharer.2 dir
  raised : ∀ translation, translate vm.mem pgroot addr = some translation →
    translation.writable = false
  write : FaultCode.has fec fecW = true
  code : FaultCode.has fec fecP = ptePresent (vm.mem table (pdx 0 addr))

/-- The fault is resolved: `pgroot` has a writable page with the bytes of the old one, the other
sharers see what they saw, and a new page took over one reference of the old one. -/
structure Resolved (vm : Vm) (page : Nat) (sharers : List (PhysAddr × Nat)) (pgroot : PhysAddr)
    (addr : Nat) (result : FaultEnd × Vm) : Prop where
  returned : result.1 = .returned
  mapped : ∃ frame translation, translate result.2.mem pgroot addr = some translation ∧
    translation.pa = frame + BitVec.ofNat 64 (addr % 2 ^ pgshift) ∧
    Ptent.has translation.flags pteP = true ∧ Ptent.has translation.flags pteW = true ∧
    Ptent.has translation.flags pteCow = false ∧
    (∀ index < nptentries, result.2.mem frame index = vm.mem (pageToPa page) index) ∧
    (frame ≠ pageToPa page → refOf result.2.pool page + 1 = refOf vm.pool page ∧
      refOf result.2.pool (paToPage frame) = 1)
  others : ∀ sharer ∈ sharers, sharer.1 ≠ pgroot →
    translate result.2.mem sharer.1 sharer.2 = translate vm.mem sharer.1 sharer.2 ∧
    ∀ index < nptentries, result.2.mem (pageToPa page) index = vm.mem (pageToPa page) index

variable {vm : Vm} {page addr : Nat} {sharers : List (PhysAddr × Nat)} {pgroot table : PhysAddr}
variable {fec : FaultCode} {mem : PhysAddr → Nat → Ptent}

/-! Words. -/

theorem cowPerm_and (pte mask : Ptent) : cowPerm pte &&& mask =
    (pte &&& (0xfff0000000000fff#64 &&& (~~~ pteCow &&& mask))) ||| (pteW &&& mask) := by
  rw [cowPerm, pteFlags, BitVec.and_or_distrib_right, BitVec.and_assoc, BitVec.and_assoc]

theorem pteAddr_cowPerm (pte : Ptent) : pteAddr (cowPerm pte) = 0 := by
  have none : 0xfff0000000000fff#64 &&& (~~~ pteCow &&& 0xffffffffff000#64) = 0 := by decide
  rw [pteAddr, cowPerm_and, none]
  simp only [BitVec.ofNat_eq_ofNat, BitVec.and_zero, BitVec.zero_or]
  decide

theorem cowPerm_has (pte : Ptent) : Ptent.has (cowPerm pte) pteP = Ptent.has pte pteP ∧
    Ptent.has (cowPerm pte) pteW = true ∧ Ptent.has (cowPerm pte) pteCow = false := by
  refine ⟨?_, ?_, ?_⟩
  · have kept : 0xfff0000000000fff#64 &&& (~~~ pteCow &&& pteP) = pteP := by decide
    have apart : pteW &&& pteP = 0 := by decide
    rw [Ptent.has, Ptent.has, cowPerm_and, kept, apart]
    simp
  · rw [Ptent.has, decide_eq_true_eq, cowPerm_and]
    intro zero
    exact absurd (BitVec.or_eq_zero_iff.mp zero).2 (by decide)
  · have cleared : 0xfff0000000000fff#64 &&& (~~~ pteCow &&& pteCow) = 0 := by decide
    have apart : pteW &&& pteCow = 0 := by decide
    rw [Ptent.has, cowPerm_and, cleared, apart]
    simp

/-- The entry that the handler writes has the flags of `cowPerm`. -/
theorem cowEntry_has {flag : Ptent} (isFlag : 0xfff0000000000fff#64 &&& flag = flag)
    (page : PhysAddr) (pte : Ptent) :
    Ptent.has (pteAddr page ||| cowPerm pte) flag = Ptent.has (cowPerm pte) flag := by
  rw [← has_flags isFlag, pteFlags_or, has_flags isFlag]

theorem ptePresent_cowEntry (page : PhysAddr) (pte : Ptent) :
    ptePresent (pteAddr page ||| cowPerm pte) = ptePresent pte := by
  rw [ptePresent_has, cowEntry_has (by decide), (cowPerm_has pte).1, ptePresent_has]

/-! An entry that is not present. -/

/-- An absent 4 KB entry translates nothing, whatever the entries above it. -/
theorem translateFrom_absent {level va : Nat} {dir leaf : PhysAddr} {above : List Ptent}
    (leads : reach tableOf mem (fun level => pdx level va) level dir = some leaf)
    (absent : ptePresent (mem leaf (pdx 0 va)) = false) :
    translateFrom mem level dir above va = none := by
  induction level generalizing dir above with
  | zero =>
      obtain rfl : dir = leaf := Option.some.inj leads
      simp [translateFrom, absent]
  | succ level ih =>
      simp only [reach] at leads
      split at leads
      · rename_i below points
        obtain ⟨slot, present, isTable⟩ := tableOf_some points
        simp only [translateFrom]
        rw [if_neg (by simp [present]), if_neg (by simp [slot])]
        split
        · rfl
        · exact ih (isTable ▸ leads)
      · simp at leads

/-- A store to an entry that names no table moves no route. -/
theorem leafTable_setWord {dir leaf : PhysAddr} {index va : Nat} (pte : Ptent)
    (nameless : ptePresent (mem dir index) = false) (leads : leafTable mem pgroot va = some leaf) :
    leafTable (setWord mem dir index pte) pgroot va = some leaf := by
  unfold leafTable at leads ⊢
  generalize 3 = level at leads ⊢
  induction level generalizing pgroot with
  | zero => exact leads
  | succ level ih =>
      simp only [reach] at leads ⊢
      split at leads
      · rename_i below points
        have present := (tableOf_some points).2.1
        have apart : ¬ (pgroot = dir ∧ pdx (level + 1) va = index) := by
          rintro ⟨rfl, rfl⟩
          exact absurd (present.symm.trans nameless) (by simp)
        rw [setWord, if_neg apart, points]
        exact ih leads
      · simp at leads

theorem pgAddr_pdx (level addr : Nat) : pdx level (pgAddr addr) = pdx level addr := by
  have split : 2 ^ (pgshift + 9 * level) = 2 ^ pgshift * 2 ^ (9 * level) := Nat.pow_add ..
  have page : pgAddr addr / 2 ^ pgshift = addr / 2 ^ pgshift :=
    Nat.mul_div_cancel _ (Nat.two_pow_pos pgshift)
  rw [pdx, pdx, split, ← Nat.div_div_eq_div_mul, ← Nat.div_div_eq_div_mul, page]

theorem leafTable_pgAddr (mem : PhysAddr → Nat → Ptent) (root : PhysAddr) (addr : Nat) :
    leafTable mem root (pgAddr addr) = leafTable mem root addr := by
  have route : (fun level => pdx level (pgAddr addr)) = fun level => pdx level addr :=
    funext fun level => pgAddr_pdx level addr
  rw [leafTable, leafTable, route]

theorem allocPage_mem (vm : Vm) : (allocPage vm).2.mem = vm.mem := by
  unfold allocPage
  split <;> rfl

/-- The handler does not make an absent entry present. -/
theorem resolveCow_absent (leads : leafTable vm.mem pgroot addr = some table)
    (absent : ptePresent (vm.mem table (pdx 0 addr)) = false)
    (returned : (resolveCow pgroot addr ⟨table, pdx 0 addr⟩ vm).1 = .returned) :
    translate (resolveCow pgroot addr ⟨table, pdx 0 addr⟩ vm).2.mem pgroot addr = none := by
  unfold resolveCow at returned ⊢
  dsimp only at returned ⊢
  split
  · -- the entry keeps its page and gets `PTE_W`
    apply translateFrom_absent (leafTable_setWord _ absent leads)
    rw [setWord, if_pos ⟨rfl, rfl⟩, ptePresent_cowEntry]
    exact absent
  · rename_i shared
    rw [if_neg shared] at returned
    have unread : ∀ next newPage, next.mem = vm.mem → copyPage pgroot newPage addr next = none := by
      intro next newPage same
      have blank : translate vm.mem pgroot (pgAddr addr) = none := by
        refine translateFrom_absent (leafTable_pgAddr vm.mem pgroot addr ▸ leads) ?_
        rw [pgAddr_pdx]
        exact absent
      rw [copyPage, same, blank]
    have mem := allocPage_mem vm
    split at returned
    · rename_i newPage next allocated
      rw [allocated] at mem
      rw [unread next newPage mem] at returned
      exact absurd returned (by simp)
    · exact absurd returned (by simp)
    · exact absurd returned (by simp)

/-! Past the assertion. -/

section Private

variable {live : List Tree} {pte : Ptent} {frame : PhysAddr}

theorem Forest.builtRoot {root : PhysAddr} (forest : Forest entryBuilt mem live)
    (member : treeOf root ∈ live) : Built mem 3 root :=
  fun low table index inside bound => forest.entries (treeOf root) member low table index inside bound

section Store

variable (forest : Forest entryBuilt mem live) (member : treeOf pgroot ∈ live)
variable (leads : leafTable mem pgroot addr = some table)

include forest member leads

/-- The entry that the handler writes maps its frame, writable and no longer copy-on-write. -/
theorem cowEntry_maps (present : ptePresent pte = true) (aligned : pteAddr frame = frame) :
    ∃ translation, translate (setWord mem table (pdx 0 addr) (pteAddr frame ||| cowPerm pte))
        pgroot addr = some translation ∧
      translation.pa = frame + BitVec.ofNat 64 (addr % 2 ^ pgshift) ∧
      Ptent.has translation.flags pteP = true ∧ Ptent.has translation.flags pteW = true ∧
      Ptent.has translation.flags pteCow = false := by
  have inside : (treeOf pgroot).Table mem 0 table := leafTable_table rfl leads
  have stored := forest.setLeaf member inside (pdx_bound 0 addr) (pteAddr frame ||| cowPerm pte)
  have route : leafTable (setWord mem table (pdx 0 addr) (pteAddr frame ||| cowPerm pte)) pgroot addr =
      some table := by
    rw [← leads]
    exact reach_congr (fun level => pdx_bound level addr) fun low dir above index _ =>
      forest.setLeaf_above member inside _ member above index
  have entry := ptePresent_cowEntry frame pte
  refine ⟨leafTranslation [] (pteAddr frame ||| cowPerm pte) pgshift addr, ?_, ?_, ?_, ?_, ?_⟩
  · rw [translate, translateFrom_reach (stored.builtRoot member) (by simp) route, setWord,
      if_pos ⟨rfl, rfl⟩, leafOnly, entry, if_pos present]
  · rw [leafTranslation, pteAddr_or _ _ (pteAddr_cowPerm pte), pteAddr_page, aligned]
  · rw [leafTranslation, has_flags (by decide), cowEntry_has (by decide), (cowPerm_has pte).1,
      ← ptePresent_has, present]
  · rw [leafTranslation, has_flags (by decide), cowEntry_has (by decide), (cowPerm_has pte).2.1]
  · rw [leafTranslation, has_flags (by decide), cowEntry_has (by decide), (cowPerm_has pte).2.2]

/-- The other roots do not see the store. -/
theorem store_unseen {other : PhysAddr} (otherMember : treeOf other ∈ live)
    (different : other ≠ pgroot) (index : Nat) (va : Nat) :
    translate (setWord mem table index pte) other va = translate mem other va := by
  refine translateFrom_congr fun low dir inside position _ => ?_
  have apart : dir ≠ table := by
    rintro rfl
    have same := (forest.table_unique member otherMember (leafTable_table rfl leads) inside).1
    exact different (congrArg Tree.root same)
  simp [setWord, apart]

end Store

/-- A page is given the words of another. -/
def copied (mem : PhysAddr → Nat → Ptent) (source target : PhysAddr) : PhysAddr → Nat → Ptent :=
  fun dir index => if dir = target then mem source index else mem dir index

theorem copied_agree {source target : PhysAddr} (unused : copies mem live target = 0) :
    ∀ tree ∈ live, ∀ low dir, tree.Table mem low dir → ∀ index < nptentries,
      copied mem source target dir index = mem dir index := by
  intro tree member low dir inside index _
  rw [copied, if_neg (inside.ne_of_copies member unused)]

/-- Where a shared page is mapped read-only, by roots as libdune builds them, and the pool is sound. -/
structure CowReady (vm : Vm) (live : List Tree) (page : Nat) (pgroot : PhysAddr) (addr : Nat)
    (table : PhysAddr) : Prop where
  grounded : Grounded entryBuilt live vm
  sound : PoolSound vm.pool
  member : treeOf pgroot ∈ live
  maps : MapsCow vm.mem page pgroot addr table
  present : ptePresent (vm.mem table (pdx 0 addr)) = true
  referenced : 1 ≤ refOf vm.pool page
  data : copies vm.mem live (pageToPa page) = 0

variable (ready : CowReady vm live page pgroot addr table)

include ready

theorem CowReady.inside : (treeOf pgroot).Table vm.mem 0 table := leafTable_table rfl ready.maps.leads

/-- The handler copies the shared page. -/
theorem CowReady.copyPage (pool : PagePool) (newPage : PhysAddr) :
    copyPage pgroot newPage addr { vm with pool := pool } =
      some ⟨pool, copied vm.mem (pageToPa page) newPage⟩ := by
  have route : leafTable vm.mem pgroot (pgAddr addr) = some table := by
    rw [leafTable_pgAddr, ready.maps.leads]
  have source : translate vm.mem pgroot (pgAddr addr) =
      some (leafTranslation [] (vm.mem table (pdx 0 addr)) pgshift (pgAddr addr)) := by
    rw [translate, translateFrom_reach (ready.grounded.forest.builtRoot ready.member) (by simp) route,
      pgAddr_pdx, leafOnly, if_pos ready.present]
  have frame : (leafTranslation [] (vm.mem table (pdx 0 addr)) pgshift (pgAddr addr)).pa =
      pageToPa page := by
    rw [leafTranslation, pteAddr_page, ready.maps.names, pgAddr, Nat.mul_mod_left]
    exact BitVec.add_zero _
  simp only [RdmaPaging.copyPage, source, frame]
  rfl

/-- The tables as they are after the copy: the handler's entry is where it was. -/
theorem CowReady.leads {mem : PhysAddr → Nat → Ptent}
    (agree : ∀ tree ∈ live, ∀ low dir, tree.Table vm.mem low dir → ∀ index < nptentries,
      mem dir index = vm.mem dir index) : leafTable mem pgroot addr = some table := by
  rw [← ready.maps.leads]
  exact reach_congr (fun level => pdx_bound level addr) fun low dir inside index bound =>
    agree _ ready.member (low + 1) dir inside index bound

/-- The handler has stored an entry for a frame with the bytes of the shared page. -/
theorem CowReady.resolved {mem : PhysAddr → Nat → Ptent} {pool : PagePool}
    (roots : ∀ sharer ∈ sharers, treeOf sharer.1 ∈ live)
    (agree : ∀ tree ∈ live, ∀ low dir, tree.Table vm.mem low dir → ∀ index < nptentries,
      mem dir index = vm.mem dir index)
    (bytes : ∀ index < nptentries, mem (pageToPa page) index = vm.mem (pageToPa page) index)
    (aligned : pteAddr frame = frame) (apart : frame ≠ table)
    (same : ∀ index < nptentries, mem frame index = vm.mem (pageToPa page) index)
    (counts : frame ≠ pageToPa page → refOf pool page + 1 = refOf vm.pool page ∧
      refOf pool (paToPage frame) = 1) :
    Resolved vm page sharers pgroot addr
      (.returned, ⟨pool, setWord mem table (pdx 0 addr)
        (pteAddr frame ||| cowPerm (vm.mem table (pdx 0 addr)))⟩) := by
  have forest := ready.grounded.forest.congr agree
  have leads := ready.leads agree
  obtain ⟨translation, translated, pa, present, writable, cow⟩ :=
    cowEntry_maps forest ready.member leads ready.present aligned
  refine ⟨rfl, ⟨frame, translation, translated, pa, present, writable, cow, ?_, counts⟩, ?_⟩
  · intro index bound
    dsimp only
    rw [setWord, if_neg (fun both => apart both.1), same index bound]
  · intro sharer listed different
    refine ⟨?_, fun index bound => ?_⟩
    · dsimp only
      rw [store_unseen forest ready.member leads (roots sharer listed) different]
      exact translateFrom_congr fun low dir inside index bound =>
        agree _ (roots sharer listed) low dir inside index bound
    · have data : pageToPa page ≠ table :=
        fun isTable => ready.inside.ne_of_copies ready.member ready.data isTable.symm
      dsimp only
      rw [setWord, if_neg (fun both => data both.1), bytes index bound]

/-- The put of the shared page, after a new one was taken. -/
theorem CowReady.put {new : Nat} {pool : PagePool} (taken : Taken vm.pool new pool) :
    ∃ after, pagePut page pool = (some (), after) ∧ refOf after page + 1 = refOf vm.pool page ∧
      refOf after new = 1 := by
  have unreferenced : ∀ other, other ∈ vm.pool.free ∨ vm.pool.numPages ≤ other →
      refOf vm.pool other = 0 := by
    intro other origin
    rcases origin with listed | outside
    · obtain ⟨inPool, none⟩ := (ready.sound.exact other).mp listed
      rw [refOf, if_pos inPool, none]
    · rw [refOf, if_neg (by omega)]
  have fresh := unreferenced new taken.source
  have referenced := ready.referenced
  have different : page ≠ new := by
    rintro rfl
    omega
  have old := taken.refs page
  rw [if_neg different, Nat.add_zero] at old
  have one := taken.refs new
  rw [if_pos rfl, fresh] at one
  have freed : ∀ other ∈ pool.free, refOf pool other = 0 := by
    intro other listed
    obtain ⟨notNew, origin⟩ := taken.rest other listed
    rw [taken.refs other, if_neg notNew, unreferenced other origin]
  have inPool : page < pool.numPages := Nat.lt_of_lt_of_le (refOf_pos referenced).1 taken.grows
  obtain ⟨after, put, _, _, _, _, refs⟩ :=
    pagePut_spec taken.list freed inPool (by rw [old]; exact referenced)
  refine ⟨after, put, ?_, ?_⟩
  · rw [refs page, if_pos rfl, old]
    omega
  · rw [refs new, if_neg different.symm, one]

/-- Behind its assertion the handler resolves the fault, as long as a page can be had and the
pool is smaller than 2 GB. -/
theorem resolveCow_resolves (roots : ∀ sharer ∈ sharers, treeOf sharer.1 ∈ live)
    (small : (pageAlloc vm.pool).2.numPages < 2 ^ 19) (supplied : (pageAlloc vm.pool).1 ≠ some none) :
    Resolved vm page sharers pgroot addr (resolveCow pgroot addr ⟨table, pdx 0 addr⟩ vm) := by
  have inPool := (refOf_pos ready.referenced).1
  have grows := (pageAlloc_grows vm.pool).1
  have number : page < 2 ^ 30 := by omega
  have named := ready.maps.names
  have tableUsed := ready.inside.ne_of_copies ready.member ready.data
  simp only [resolveCow]
  split
  · rw [named]
    conv in pageToPa page => rw [← pteAddr_pageToPa number]
    exact ready.resolved roots (fun _ _ _ _ _ _ _ => rfl) (fun _ _ => rfl) (pteAddr_pageToPa number)
      (Ne.symm tableUsed) (fun _ _ => rfl) (fun other => absurd rfl other)
  · rcases pageAlloc_spec ready.sound.freeList with ⟨new, result, taken⟩ | refused
    · have allocated : allocPage vm =
          (some (some (pageToPa new)), { vm with pool := (pageAlloc vm.pool).2 }) := by
        have pair : pageAlloc vm.pool = (some (some new), (pageAlloc vm.pool).2) :=
          Prod.ext result rfl
        simp only [allocPage]
        rw [pair]
      have newNumber : new < 2 ^ 30 := by
        have bound := taken.inPool
        omega
      have unused : copies vm.mem live (pageToPa new) = 0 :=
        ready.grounded.unused taken (by unfold maxPages; omega)
      have newTable : pageToPa new ≠ table :=
        fun same => ready.inside.ne_of_copies ready.member unused same.symm
      have entry : copied vm.mem (pageToPa page) (pageToPa new) table (pdx 0 addr) =
          vm.mem table (pdx 0 addr) := if_neg newTable.symm
      obtain ⟨after, put, old, one⟩ := ready.put taken
      have fromPool := pageIsFromPool_pageToPa small (Nat.lt_of_lt_of_le inPool grows)
      rw [allocated]
      dsimp only
      rw [ready.copyPage]
      simp only [mapCopy, entry, named, fromPool, if_true, paToPage_pageToPa number, put]
      refine ready.resolved roots (copied_agree unused) (fun index _ => ?_)
        (pteAddr_pageToPa newNumber) newTable (fun index _ => if_pos rfl) (fun _ => ⟨old, ?_⟩)
      · exact ite_self _
      · rw [paToPage_pageToPa newNumber, one]
    · exact absurd (by rw [refused]) supplied

end Private

/-- No copy-on-write fault is resolved: a present entry fails the assertion on the fault code,
and an absent one stays absent. -/
theorem cow_fault_unresolved (fault : CowFault vm page sharers pgroot addr fec table) :
    ¬ Resolved vm page sharers pgroot addr (vmDefaultPgfltHandler pgroot addr fec vm) := by
  intro resolved
  obtain ⟨frame, translation, translated, _⟩ := resolved.mapped
  have returned := resolved.returned
  unfold vmDefaultPgfltHandler at returned translated
  split at returned
  · exact absurd returned (by simp)
  · rename_i accepted
    rw [if_neg accepted, vmLookup_found fault.maps.leads] at translated
    rw [vmLookup_found fault.maps.leads] at returned
    dsimp only at returned translated
    rw [fault.write, fault.maps.cow, Bool.and_self, if_pos rfl] at returned translated
    have absent : ptePresent (vm.mem table (pdx 0 addr)) = false := by
      rw [← fault.code]
      by_contra violation
      rw [Bool.not_eq_false, FaultCode.has, decide_eq_true_eq] at violation
      apply accepted
      rw [FaultCode.has, decide_eq_true_eq, BitVec.and_or_distrib_left]
      exact fun zero => violation (BitVec.or_eq_zero_iff.mp zero).1
    rw [resolveCow_absent fault.maps.leads absent returned] at translated
    exact absurd translated (by simp)

/-- A page mapped copy-on-write, and a clone of its root. -/
def cowVm : Vm :=
  (vmClone 0x1000#64 (vmMapPages 0x1000#64 0 4096 (permR ||| permCow) blankVm).2).2

def cowSharers : List (PhysAddr × Nat) := [(0x1000#64, 0), (pageToPa 507, 0)]

/-- Both roots lead to read-only entries for page 508. -/
theorem cowVm_entries :
    508 < cowVm.pool.numPages ∧ leafTable cowVm.mem 0x1000#64 0 = some (pageToPa 509) ∧
      leafTable cowVm.mem (pageToPa 507) 0 = some (pageToPa 504) ∧
      pteAddr (cowVm.mem (pageToPa 509) (pdx 0 0)) = pageToPa 508 ∧
      pteAddr (cowVm.mem (pageToPa 504) (pdx 0 0)) = pageToPa 508 ∧
      Ptent.has (cowVm.mem (pageToPa 509) (pdx 0 0)) pteCow = true ∧
      Ptent.has (cowVm.mem (pageToPa 504) (pdx 0 0)) pteCow = true ∧
      ptePresent (cowVm.mem (pageToPa 509) (pdx 0 0)) = true ∧
      (translate cowVm.mem 0x1000#64 0).map Translation.writable = some false := by
  decide +kernel

theorem cowVm_fault :
    CowFault cowVm 508 cowSharers 0x1000#64 0 (fecP ||| fecW) (pageToPa 509) := by
  obtain ⟨inPool, leads, cloneLeads, names, cloneNames, cow, cloneCow, present, readOnly⟩ :=
    cowVm_entries
  refine ⟨inPool, ⟨leads, names, cow⟩, ?_, ?_, by decide, present.symm⟩
  · intro sharer listed
    rcases List.mem_pair.mp listed with rfl | rfl
    · dsimp only
      exact ⟨pageToPa 509, leads, names, cow⟩
    · dsimp only
      exact ⟨pageToPa 504, cloneLeads, cloneNames, cloneCow⟩
  · intro translation translated
    rw [translated] at readOnly
    exact Option.some.inj readOnly

theorem cow_fault_unresolved_shared :
    ¬ Resolved cowVm 508 cowSharers 0x1000#64 0
      (vmDefaultPgfltHandler 0x1000#64 0 (fecP ||| fecW) cowVm) :=
  cow_fault_unresolved cowVm_fault

/-- A write to the shared page ends the process. -/
theorem cow_write_aborts :
    ∃ vm page sharers pgroot addr fec table, CowFault vm page sharers pgroot addr fec table ∧
      (vmDefaultPgfltHandler pgroot addr fec vm).1 = .aborted ∧
      ¬ Resolved vm page sharers pgroot addr (vmDefaultPgfltHandler pgroot addr fec vm) := by
  have aborts : (vmDefaultPgfltHandler 0x1000#64 0 (fecP ||| fecW) cowVm).1 = .aborted := by
    rw [vmDefaultPgfltHandler, if_pos (by decide)]
  refine ⟨cowVm, 508, cowSharers, 0x1000#64, 0, fecP ||| fecW, pageToPa 509, cowVm_fault, aborts, ?_⟩
  intro resolved
  have returned := resolved.returned
  rw [aborts] at returned
  exact absurd returned (by decide)

end RdmaPaging
