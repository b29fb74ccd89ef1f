import RdmaPaging.EptInvalidate
import RdmaPaging.VmLeaves

/-!
Faults and changes of the host's mapping that overlap. A fault fetches its page before it takes
`ept_lock`, so the page that it enters may be one that the host has taken back meanwhile. The pages
are of 4 KB.
-/

namespace RdmaPaging

/-- The first address of the page of an address. -/
def pageStart (addr : BitVec 64) : BitVec 64 := BitVec.ofNat 64 (addr.toNat / 4096 * 4096)

/-- A fault between `get_user_pages_fast` and `ept_lock`. -/
structure PendingFault where
  gpa : PhysAddr
  makeWrite : Bool
  page : PageFrame

def PendingFault.gup (fault : PendingFault) : GupPage where
  page := fault.page
  head := fault.page
  order := 0

/-- The EPT, the pages that the host maps in the process, and the faults under way. -/
structure EptHost where
  ept : Ept
  host : VirtAddr → Option PageFrame
  pending : List PendingFault

inductive HostAction
  | fetch (gpa : PhysAddr) (faultFlags : BitVec 32)
  | install (index : Nat) (supply : Supply)
  | changePage (addr : VirtAddr) (page : Option PageFrame)
  | changeRange (start stop : VirtAddr) (pages : VirtAddr → Option PageFrame)

instance {start stop page : VirtAddr} : Decidable (RangePage start stop page) :=
  inferInstanceAs (Decidable (_ ∧ _ ∧ _))

/-- The two steps of a fault, and the changes of the host's mapping with their callbacks. A fault
ends without an entry where it has no address in the process or the host no page. -/
def hostStep (config : EptConfig) (state : EptHost) : HostAction → Option EptHost
  | .fetch gpa faultFlags =>
      if gpaToHva config.physBits config.mm gpa = addrInval then some state
      else
        match state.host (pageStart (gpaToHva config.physBits config.mm gpa)) with
        | none => some state
        | some page => some { state with
            ept := state.ept.getPage page
            pending := ⟨gpa, faultFlags &&& vmxEptFaultWrite ≠ 0, page⟩ :: state.pending }
  | .install index supply =>
      match state.pending[index]? with
      | none => none
      | some fault => some { state with
          ept := (eptInstall config fault.makeWrite fault.gpa fault.gup supply state.ept).2
          pending := state.pending.eraseIdx index }
  | .changePage addr page => some { state with
      host := Function.update state.host addr page
      ept := (eptMmuNotifierInvalidatePage config addr state.ept).2 }
  | .changeRange start stop pages =>
      (eptMmuNotifierInvalidateRangeStart config start stop state.ept).map fun ept => { state with
        host := fun addr => if RangePage start stop addr then pages addr else state.host addr
        ept := ept }

/-- The kernel gives out pages that are not in use, and calls the notifier for whole pages. -/
def hostGuard (state : EptHost) : HostAction → Prop
  | .fetch _ _ => True
  | .install _ supply => Fresh state.ept supply
  | .changePage addr _ => addr.toNat % 4096 = 0
  | .changeRange start stop _ => start.toNat % 4096 = 0 ∧ stop.toNat % 4096 = 0

/-- Every present entry maps the page that the host maps at the address in the process. -/
def HostAgrees (config : EptConfig) (state : EptHost) : Prop :=
  ∀ (gpa : PhysAddr) level epte, gpa.toNat < 2 ^ 48 → gpa.toNat % 4096 = 0 →
    state.ept.leaf gpa.toNat = some (level, epte) → level = 0 ∧
      ∃ page, state.host (gpaToHva config.physBits config.mm gpa) = some page ∧
        epteAddr epte = page.val

/-- The EPT maps the pages only at the guest-physical addresses that `hva_to_gpa` has for them. -/
def MappedWhereNamed (config : EptConfig) (pages : VirtAddr → Prop) (ept : Ept) : Prop :=
  ∀ gpa : PhysAddr, gpa.toNat < 2 ^ 48 → pages (gpaToHva config.physBits config.mm gpa) →
    (ept.leaf gpa.toNat).isSome = true →
    hvaToGpa config.physBits config.mm (gpaToHva config.physBits config.mm gpa) = gpa

/-- A fault enters a page that the host still maps there, at an address that a walk of four levels
has, and a page that is changed is mapped only where the notifier looks. -/
def HostUndisturbed (config : EptConfig) (state : EptHost) : HostAction → Prop
  | .fetch _ _ => True
  | .install index _ => ∀ fault, state.pending[index]? = some fault → fault.gpa.toNat < 2 ^ 48 ∧
      state.host (pageStart (gpaToHva config.physBits config.mm fault.gpa)) = some fault.page
  | .changePage addr _ => MappedWhereNamed config (fun page => page = addr) state.ept
  | .changeRange start stop _ => MappedWhereNamed config (RangePage start stop) state.ept

variable {config : EptConfig} {state next : EptHost} {ept after : Ept} {fault : PendingFault}
variable {pages : VirtAddr → Prop}

/-- A fault whose steps follow each other is `vmx_do_ept_fault`. -/
theorem fault_alone {gpa : PhysAddr} {faultFlags : BitVec 32} {page : PageFrame} (source : PfnSource)
    (supply : Supply) (valid : gpaToHva config.physBits config.mm gpa ≠ addrInval)
    (mapped : state.host (pageStart (gpaToHva config.physBits config.mm gpa)) = some page) :
    (hostStep config state (.fetch gpa faultFlags)).bind
        (fun fetched => hostStep config fetched (.install 0 supply)) =
      some { state with
        ept := (vmxDoEptFault config gpa faultFlags (some ⟨page, page, 0⟩)
          source supply state.ept).2 } := by
  simp only [hostStep, if_neg valid, mapped, Option.bind_some, List.getElem?_cons_zero,
    List.eraseIdx_cons_zero, vmxDoEptFault, eptSetEpte, PendingFault.gup]

/-! Addresses. -/

theorem pageStart_toNat (addr : BitVec 64) : (pageStart addr).toNat = addr.toNat / 4096 * 4096 := by
  have bound := addr.isLt
  rw [pageStart, BitVec.toNat_ofNat]
  omega

/-- `gpa_to_hva` takes the start of a page to the start of a page. -/
theorem gpaToHva_start (wide : 32 ≤ config.physBits) (narrow : config.physBits ≤ 52)
    {gpa base : PhysAddr} (inside : gpa.toNat < (physEnd config.physBits).toNat)
    (aligned : base.toNat % 4096 = 0) (samePage : base.toNat / 4096 = gpa.toNat / 4096) :
    gpaToHva config.physBits config.mm base = pageStart (gpaToHva config.physBits config.mm gpa) := by
  have high := (physEnd_bounds wide narrow).2
  have below : base.toNat < (physEnd config.physBits).toNat := by omega
  have offset : (gpa - base).toNat = gpa.toNat % 4096 := by
    rw [BitVec.toNat_sub]
    omega
  have split : gpa = base + (gpa - base) := by
    apply BitVec.eq_of_toNat_eq
    rw [BitVec.toNat_add, offset]
    omega
  have moved : gpaToHva config.physBits config.mm gpa =
      gpaToHva config.physBits config.mm base + (gpa - base) := by
    have kept : gpaToHva config.physBits config.mm (base + (gpa - base)) =
        gpaToHva config.physBits config.mm base + (gpa - base) :=
      gpaToHva_offset wide narrow aligned (by omega) below
    rwa [← split] at kept
  have huge : (gpaToHva config.physBits config.mm base).toNat % 2 ^ 21 = base.toNat % 2 ^ 21 :=
    gpaToHva_huge wide narrow (BitVec.lt_def.mpr below)
  apply BitVec.eq_of_toNat_eq
  rw [pageStart_toNat, moved, BitVec.toNat_add, offset]
  have bound := (gpaToHva config.physBits config.mm base).isLt
  omega

/-! The steps. -/

/-- What holds in every state: the faults under way have addresses in the process. -/
structure HostInv (config : EptConfig) (state : EptHost) : Prop where
  tree : EptTree state.ept
  agrees : HostAgrees config state
  valid : ∀ fault ∈ state.pending, gpaToHva config.physBits config.mm fault.gpa ≠ addrInval

theorem Ept.leaf_lowest {gpa : Nat} {table : PhysAddr} (leads : ept.tableFor gpa 0 = some table) :
    ept.leaf gpa = if eptePresent (ept.mem table (pdx 0 gpa)) then some (0, ept.mem table (pdx 0 gpa))
      else none := by
  rw [Ept.tableFor] at leads
  rw [Ept.leaf, Ept.walk, RadixTree.leafAt_of_tableAt leads]
  rfl

/-- Clearing some pages maps nothing new. -/
theorem PagesCleared.leaf (cleared : PagesCleared config pages ept after) {gpa : Nat} {leaf : Nat × Epte}
    (mapped : after.leaf gpa = some leaf) : ept.leaf gpa = some leaf := by
  rcases leads : ept.tableFor gpa 0 with _ | table
  · rwa [cleared.larger gpa leads] at mapped
  · by_cases found : ∃ page, pages page ∧ eptFind config page ept = .ok ⟨table, pdx 0 gpa⟩
    · obtain ⟨page, isPage, isFound⟩ := found
      have zero := cleared.emptied page _ isPage isFound
      rw [Ept.leaf_lowest ((cleared.tables gpa).trans leads), zero] at mapped
      exact absurd mapped (by simp)
    · have same := cleared.kept ⟨table, pdx 0 gpa⟩
        fun page isPage isFound => found ⟨page, isPage, isFound⟩
      rwa [Ept.leaf_lowest ((cleared.tables gpa).trans leads), same, ← Ept.leaf_lowest leads] at mapped

/-- A change of some pages whose callback clears them. -/
theorem HostInv.change {host : VirtAddr → Option PageFrame} (inv : HostInv config state)
    (cleared : PagesCleared config pages state.ept after) (named : MappedWhereNamed config pages state.ept)
    (others : ∀ page, ¬ pages page → host page = state.host page) :
    HostInv config { state with ept := after, host := host } where
  tree := cleared.tree
  agrees := by
    intro gpa level epte inside aligned mapped
    have before := cleared.leaf mapped
    obtain ⟨lowest, page, maps, isPage⟩ := inv.agrees gpa level epte inside aligned before
    refine ⟨lowest, page, ?_, isPage⟩
    have notChanged : ¬ pages (gpaToHva config.physBits config.mm gpa) := by
      intro changed
      have proper : gpa ≠ addrInval := by
        rintro rfl
        exact absurd inside (by decide)
      have small : ¬ HugeLeaf state.ept gpa.toNat := by
        rintro ⟨huge, _⟩
        rw [Ept.walk_of_leaf before] at huge
        exact huge lowest
      have unmapped := cleared.unmapped inv.tree proper (named gpa inside changed (by simp [before]))
        changed small
      rw [unmapped] at mapped
      exact absurd mapped (by simp)
    exact (others _ notChanged).trans maps
  valid := inv.valid

theorem gup_level (fault : PendingFault) : fault.gup.level = 0 := rfl

theorem epteAddr_gup (fault : PendingFault) :
    epteAddr (pageEntry config fault.makeWrite fault.gup) = fault.page.val := by
  have outside : epteAddr (eptLeafFlags config.adEnabled fault.makeWrite pageFlags) = 0#64 := by
    cases fault.makeWrite <;> cases config.adEnabled <;> decide
  rw [pageEntry, if_pos (gup_level fault), epteAddr_or _ _ outside]
  exact fault.page.2

/-- What the part of a fault under the lock leaves mapped: its page, and all else as before. -/
theorem eptInstall_leaf {supply : Supply} (tree : EptTree ept) (fresh : Fresh ept supply) {gpa : PhysAddr}
    {leaf : Nat × Epte} (inside : gpa.toNat < 2 ^ 48) (faultInside : fault.gpa.toNat < 2 ^ 48)
    (mapped : (eptInstall config fault.makeWrite fault.gpa fault.gup supply ept).2.leaf gpa.toNat =
      some leaf) :
    ept.leaf gpa.toNat = some leaf ∨ gpa.toNat / 4096 = fault.gpa.toNat / 4096 ∧
      leaf = (0, pageEntry config fault.makeWrite fault.gup) := by
  have installs := eptInstall_installs config fault.makeWrite fault.gpa fault.gup tree fresh
  generalize eptInstall config fault.makeWrite fault.gpa fault.gup supply ept = result at installs mapped
  cases installs with
  | failed ret grown grows =>
      left
      rwa [← grows.leaf]
  | entered grown emptied slot grows leads index empties =>
      rw [gup_level] at leads index empties
      have place := Ept.tableFor_inside leads
      have bound : slot.index < nptentries := by
        rw [index]
        exact pdx_lt_nptentries _ _
      have emptyTree := empties.tree grows.tree place bound
      have emptyLeads := empties.stored.tableFor grows.tree leads
      have stored := eptEnterPage_stored config fault.makeWrite fault.gup empties.zero
      rw [gup_level] at stored
      rw [stored.leaf_eq emptyTree (Ept.tableFor_inside emptyLeads)] at mapped
      split at mapped
      · rename_i through
        right
        have upper := RadixTree.tableAt_unique (gpaRoute_lt gpa.toNat) (gpaRoute_lt fault.gpa.toNat)
          (emptyTree.once slot.dir) through.1 emptyLeads
        refine ⟨?_, ?_⟩
        · exact same_page_of_pdx faultInside inside (through.2.trans index) fun low small =>
            upper (low + 1) (Nat.succ_pos low) small
        · rw [if_pos (pageEntry_leaf config fault.makeWrite fault.gup).present] at mapped
          exact (Option.some.inj mapped).symm
      · left
        rw [empties.stored.leaf_eq grows.tree place] at mapped
        split at mapped
        · exact absurd mapped (by simp [epteNone])
        · rwa [grows.leaf] at mapped

theorem HostInv.step {action : HostAction} (wide : 32 ≤ config.physBits) (narrow : config.physBits ≤ 52)
    (inv : HostInv config state) (allowed : hostGuard state action)
    (undisturbed : HostUndisturbed config state action) (stepped : hostStep config state action = some next) :
    HostInv config next := by
  cases action with
  | fetch gpa faultFlags =>
      simp only [hostStep] at stepped
      split at stepped
      · rw [Option.some.injEq] at stepped
        exact stepped ▸ inv
      · rename_i valid
        split at stepped
        · rw [Option.some.injEq] at stepped
          exact stepped ▸ inv
        · rename_i page _
          rw [Option.some.injEq] at stepped
          subst stepped
          refine ⟨inv.tree.getPage page, inv.agrees, ?_⟩
          intro fault member
          rcases List.mem_cons.mp member with rfl | earlier
          · exact valid
          · exact inv.valid fault earlier
  | install index supply =>
      simp only [hostStep] at stepped
      split at stepped
      · simp at stepped
      · rename_i fault found
        rw [Option.some.injEq] at stepped
        subst stepped
        obtain ⟨inside, current⟩ := undisturbed fault found
        have faulting := BitVec.lt_def.mp
          (gpa_inside wide narrow (inv.valid fault (List.mem_of_getElem? found)))
        have installed := eptInstall_installs config fault.makeWrite fault.gpa fault.gup inv.tree allowed
        refine ⟨installed.kept.1, ?_,
          fun other member => inv.valid other (List.mem_of_mem_eraseIdx member)⟩
        intro gpa level epte gpaInside aligned mapped
        rcases eptInstall_leaf inv.tree allowed gpaInside inside mapped with before | ⟨samePage, entered⟩
        · exact inv.agrees gpa level epte gpaInside aligned before
        · obtain ⟨rfl, rfl⟩ := Prod.ext_iff.mp entered
          refine ⟨rfl, fault.page, ?_, epteAddr_gup fault⟩
          rw [gpaToHva_start wide narrow faulting aligned samePage]
          exact current
  | changePage addr page =>
      rw [hostStep, Option.some.injEq] at stepped
      subst stepped
      exact inv.change (eptInvalidatePage_clears addr inv.tree) undisturbed
        fun other different => Function.update_of_ne different _ _
  | changeRange start stop replaced =>
      rw [hostStep, Option.map_eq_some_iff] at stepped
      obtain ⟨ept, ended, rfl⟩ := stepped
      obtain ⟨after, finished, cleared⟩ := invalidateRange_clears allowed.1 allowed.2 inv.tree
      rw [ended, Option.some.injEq] at finished
      subst finished
      exact inv.change cleared undisturbed fun other outside => if_neg outside

theorem vmxInitEpt_unmapped {mem : PhysAddr → Nat → Epte} {root : Option PageFrame}
    (init : vmxInitEpt mem root = .ok ept) (gpa : Nat) : ept.leaf gpa = none := by
  unfold vmxInitEpt at init
  split at init
  · simp at init
  · rw [Except.ok.injEq] at init
    subst init
    simp [Ept.leaf, Ept.walk, RadixTree.leafAt, eptTable]

/-! Runs. -/

/-- The start of the machine: an EPT as `vmx_init_ept` makes it, and no fault under way. -/
def HostStarts (mem : PhysAddr → Nat → Epte) (root : Option PageFrame) (start : EptHost) : Prop :=
  vmxInitEpt mem root = .ok start.ept ∧ start.pending = []

def hostRule (config : EptConfig) (state : EptHost) (action : HostAction) : Prop :=
  hostGuard state action ∧ HostUndisturbed config state action

/-- A run that no late fault and no second address of a page disturbs. -/
def UndisturbedRun (config : EptConfig) : EptHost → EptHost → Prop :=
  Machine.Reaches (hostStep config) (hostRule config)

theorem UndisturbedRun.inv {mem : PhysAddr → Nat → Epte} {root : Option PageFrame} {start : EptHost}
    (wide : 32 ≤ config.physBits) (narrow : config.physBits ≤ 52) (starts : HostStarts mem root start)
    (run : UndisturbedRun config start state) : HostInv config state := by
  obtain ⟨init, quiet⟩ := starts
  have first : HostInv config start := by
    refine ⟨(vmxInitEpt_balanced init).1, ?_, ?_⟩
    · intro gpa level epte _ _ mapped
      rw [vmxInitEpt_unmapped init] at mapped
      exact absurd mapped (by simp)
    · rw [quiet]
      exact fun fault member => absurd member (by simp)
  exact Machine.Reaches.invariant run (HostInv config) first fun state action next inv allowed stepped =>
    inv.step wide narrow allowed.1 allowed.2 stepped

/-- The walk for an address is that for the start of its page. -/
theorem Ept.leaf_start (ept : Ept) (gpa : PhysAddr) :
    ept.leaf (pageStart gpa).toNat = ept.leaf gpa.toNat := by
  have route : gpaRoute (pageStart gpa).toNat = gpaRoute gpa.toNat := by
    funext level
    refine pdx_block (show SameBlock 0 (pageStart gpa) gpa from ?_) (Nat.zero_le level)
    rw [SameBlock, entrySpan_zero, pageStart_toNat, Nat.mul_div_cancel _ (by decide)]
  rw [Ept.leaf, Ept.leaf, Ept.walk, Ept.walk, route]

/-- A translation of the EPT ends in the page that the host has at the address in the process. -/
theorem HostAgrees.translate (agrees : HostAgrees config state) {gpa target : PhysAddr}
    (small : ∀ addr page, state.host addr = some page → page.val.toNat < 2 ^ 52)
    (inside : gpa.toNat < 2 ^ 48) (leads : state.ept.translate gpa = some target) : ∃ page,
      state.host (gpaToHva config.physBits config.mm (pageStart gpa)) = some page ∧
        target = page.val + BitVec.ofNat 64 (gpa.toNat % 4096) := by
  have start := pageStart_toNat gpa
  rw [Ept.translate, Option.map_eq_some_iff] at leads
  obtain ⟨⟨level, epte⟩, mapped, isTarget⟩ := leads
  rw [← Ept.leaf_start] at mapped
  obtain ⟨rfl, page, maps, isPage⟩ := agrees (pageStart gpa) level epte (by omega) (by omega) mapped
  refine ⟨page, maps, ?_⟩
  have aligned := pageFrame_aligned page
  have bound := small _ page maps
  have address : pteAddr epte = page.val := by
    rw [← pteAddr_of_aligned aligned bound, ← isPage, pteAddr, pteAddr, epteAddr, BitVec.and_assoc]
    congr 1
  have shifted : (page.val >>> (pgshift + 9 * 0)) <<< (pgshift + 9 * 0) = page.val := by
    apply BitVec.eq_of_toNat_eq
    rw [BitVec.toNat_shiftLeft, BitVec.toNat_ushiftRight, Nat.shiftLeft_eq, Nat.shiftRight_eq_div_pow,
      pgshift]
    omega
  rw [← isTarget, address, shifted, entrySpan_zero]

/-- At the guest-physical address that libdune gives an address is the byte of the process there. -/
theorem HostAgrees.own (agrees : HostAgrees config state) (wide : 32 ≤ config.physBits)
    (narrow : config.physBits ≤ 52)
    (small : ∀ addr page, state.host addr = some page → page.val.toNat < 2 ^ 52) {va : VirtAddr}
    {gpa target : PhysAddr} (valid : hvaToGpa config.physBits config.mm va ≠ addrInval)
    (named : gpa = duneVaToPa (getLayout config.physBits config.mm) va) (bound : gpa.toNat < 2 ^ 48)
    (leads : state.ept.translate gpa = some target) : ∃ page, state.host (pageStart va) = some page ∧
      target = page.val + BitVec.ofNat 64 (va.toNat % 4096) := by
  obtain ⟨page, maps, isTarget⟩ := agrees.translate small bound leads
  rw [duneVaToPa_eq_hvaToGpa valid] at named
  have inside := hvaToGpa_lt wide narrow valid
  have back := gpaToHva_hvaToGpa wide narrow valid
  have huge : (gpaToHva config.physBits config.mm (hvaToGpa config.physBits config.mm va)).toNat % 2 ^ 21 =
      (hvaToGpa config.physBits config.mm va).toNat % 2 ^ 21 :=
    gpaToHva_huge wide narrow (BitVec.lt_def.mpr inside)
  rw [← named] at inside back huge
  rw [back] at huge
  have base := pageStart_toNat gpa
  have same : (pageStart gpa).toNat / 4096 = gpa.toNat / 4096 := by omega
  have start : gpaToHva config.physBits config.mm (pageStart gpa) =
      pageStart (gpaToHva config.physBits config.mm gpa) :=
    gpaToHva_start wide narrow inside (by omega) same
  rw [start, back] at maps
  refine ⟨page, maps, ?_⟩
  have offset : va.toNat % 4096 = gpa.toNat % 4096 := by omega
  rw [isTarget, offset]

end RdmaPaging
