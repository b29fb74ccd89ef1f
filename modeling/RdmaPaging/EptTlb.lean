import RdmaPaging.EptInvalidate
import RdmaPaging.MapCache
import RdmaPaging.VmxActive

/-!
The translations that the processors cache of the EPTs of the VCPUs: what a processor caches, the
flushes `ept_sync_context` and `ept_sync_individual_addr`, and which translations a fault or a
callback of the notifier changes.
-/

namespace RdmaPaging

/-- The address lies in the block of an entry of a level that maps the page. -/
def inBlock (level page : Nat) (gpa : PhysAddr) : Bool :=
  page * 4096 / entrySpan level == gpa.toNat / entrySpan level

/-- The translations of an EPT, by the number of the page. The walk of four levels has 48 bits. -/
def Ept.pages (ept : Ept) (page : Nat) : Option (Nat × Epte) :=
  if page < 2 ^ 36 then ept.leaf (page * 4096) else none

/-! The processor. -/

/-- What a processor caches, by EPT pointer and page: the entry and its level. -/
abbrev Tlb := BitVec 64 → Nat → Option (Nat × Epte)

inductive InveptExtent
  | individualAddr
  | context
  | global

/-- The instruction. A flush for one address drops what translates that address. -/
def invept (extent : InveptExtent) (eptp : BitVec 64) (gpa : PhysAddr) (tlb : Tlb) : Tlb :=
  fun tag =>
    match extent with
    | .individualAddr =>
        if tag = eptp then MapCache.drop (fun page leaf => inBlock leaf.1 page gpa) (tlb tag) else tlb tag
    | .context => if tag = eptp then fun _ => none else tlb tag
    | .global => fun _ => none

def vmxEptAdBit : BitVec 32 := 0x200000#32
def vmxEptExtentIndividualBit : BitVec 32 := 0x1000000#32
def vmxEptExtentContextBit : BitVec 32 := 0x2000000#32
def vmxEptExtentGlobalBit : BitVec 32 := 0x4000000#32

def cpuHasVmxInveptIndividualAddr (ept : BitVec 32) : Bool := ept &&& vmxEptExtentIndividualBit ≠ 0

def cpuHasVmxInveptContext (ept : BitVec 32) : Bool := ept &&& vmxEptExtentContextBit ≠ 0

def cpuHasVmxInveptGlobal (ept : BitVec 32) : Bool := ept &&& vmxEptExtentGlobalBit ≠ 0

def cpuHasVmxEptAdBits (ept : BitVec 32) : Bool := ept &&& vmxEptAdBit ≠ 0

def eptSyncGlobal (caps : BitVec 32) (tlb : Tlb) : Tlb :=
  if cpuHasVmxInveptGlobal caps then invept .global 0 0 tlb else tlb

def eptSyncContext (caps : BitVec 32) (eptp : BitVec 64) (tlb : Tlb) : Tlb :=
  if cpuHasVmxInveptContext caps then invept .context eptp 0 tlb else eptSyncGlobal caps tlb

def eptSyncIndividualAddr (caps : BitVec 32) (eptp : BitVec 64) (gpa : PhysAddr) (tlb : Tlb) : Tlb :=
  if cpuHasVmxInveptIndividualAddr caps then invept .individualAddr eptp gpa tlb
  else eptSyncContext caps eptp tlb

/-- Write-back tables, a walk of four levels, the accessed and dirty bits if the processor has
them, and the root. -/
def constructEptp (caps : BitVec 32) (rootHpa : PhysAddr) : BitVec 64 :=
  (0x1e#64 ||| if cpuHasVmxEptAdBits caps then 0x40#64 else 0#64) ||| (rootHpa &&& ~~~ 0xfff#64)

/-! What the callbacks flush. -/

inductive SyncKind
  | individualAddr (gpa : PhysAddr)
  | vcpu

/-- The callbacks of the notifier that clear entries. -/
inductive EptCallback
  | invalidatePage (addr : VirtAddr)
  | changePte (addr : VirtAddr)
  | clearFlushYoung (addr : VirtAddr)
  | invalidateRangeStart (start stop : VirtAddr)

/-- `ept_invalidate_page` with its call of `vmx_ept_sync_individual_addr`. -/
def invalidatePageSync (config : EptConfig) (addr : VirtAddr) (ept : Ept) : Option SyncKind × Ept :=
  let result := eptInvalidatePage config addr ept
  (if result.1 ≠ 0 then some (.individualAddr (hvaToGpa config.physBits config.mm addr)) else none,
    result.2)

/-- The loop of `ept_mmu_notifier_invalidate_range_start` with `sync_needed`. -/
def invalidateLoopSync (config : EptConfig) (stop : VirtAddr) :
    Nat → Bool → VirtAddr × Ept → Option (Bool × Ept)
  | 0, _, _ => none
  | fuel + 1, syncNeeded, (pos, ept) =>
      if pos < stop then
        invalidateLoopSync config stop fuel (syncNeeded || (eptFind config pos ept).isOk)
          (rangePass (eptFind config pos ept) pos ept)
      else some (syncNeeded, ept)

def eptCallback (config : EptConfig) (ept : Ept) : EptCallback → Option (Option SyncKind × Ept)
  | .invalidatePage addr => some (invalidatePageSync config addr ept)
  | .changePte addr => some (invalidatePageSync config addr ept)
  | .clearFlushYoung addr => some
      (if ¬ config.adEnabled then invalidatePageSync config addr ept
      else ((accessedSync config addr true ept).map .individualAddr,
        (eptCheckPageAccessed config addr true ept).2))
  | .invalidateRangeStart start stop =>
      (invalidateLoopSync config stop rangePasses false (start, ept)).map fun result =>
        (if result.1 then some .vcpu else none, result.2)

variable {config : EptConfig} {ept next after : Ept} {slot : PteRef} {epte : Epte}
variable {low page : Nat} {gpa : PhysAddr} {supply : Supply}

/-- The loop with `sync_needed` is the loop. -/
theorem invalidateLoopSync_loop (stop : VirtAddr) (fuel : Nat) (syncNeeded : Bool) (pos : VirtAddr × Ept) :
    (invalidateLoopSync config stop fuel syncNeeded pos).map Prod.snd =
      invalidateLoop config stop fuel pos := by
  induction fuel generalizing syncNeeded pos with
  | zero => rfl
  | succ fuel ih =>
      rw [invalidateLoopSync, invalidateLoop]
      split
      · exact ih _ _
      · rfl

/-! The translations that change. -/

theorem block_split (level address : Nat) :
    address / entrySpan level = nptentries * (address / entrySpan (level + 1)) + pdx level address := by
  rw [pdx_eq, entrySpan_succ, Nat.mul_comm nptentries (entrySpan level), ← Nat.div_div_eq_div_mul,
    Nat.div_add_mod]

/-- Two addresses with the same way down to a table and the same index there lie in one block. -/
theorem same_block_of_pdx {address other : Nat} (inside : address < 2 ^ 48) (otherInside : other < 2 ^ 48)
    (rest : Nat) (levels : low + rest = 4)
    (same : ∀ level, low ≤ level → level ≤ 3 → pdx level address = pdx level other) :
    address / entrySpan low = other / entrySpan low := by
  induction rest generalizing low with
  | zero =>
      obtain rfl : low = 4 := levels
      rw [Nat.div_eq_of_lt (show address < entrySpan 4 from inside),
        Nat.div_eq_of_lt (show other < entrySpan 4 from otherInside)]
  | succ rest ih =>
      rw [block_split, block_split low other, same low (Nat.le_refl _) (by omega),
        ih (by omega) fun level above small => same level (by omega) small]

theorem inBlock_self (level : Nat) (gpa : PhysAddr) : inBlock level (gpa.toNat / 4096) gpa = true := by
  have lowest : (4096 : Nat) = entrySpan 0 := by decide
  obtain ⟨times, span⟩ := entrySpan_dvd (Nat.zero_le level)
  rw [inBlock, beq_iff_eq, span, ← lowest, ← Nat.div_div_eq_div_mul, ← Nat.div_div_eq_div_mul,
    Nat.mul_div_cancel _ (by decide)]

theorem inBlock_zero {page : Nat} {gpa : PhysAddr} :
    inBlock 0 page gpa = true ↔ page = gpa.toNat / 4096 := by
  have lowest : entrySpan 0 = 4096 := by decide
  rw [inBlock, beq_iff_eq, lowest, Nat.mul_div_cancel _ (by decide)]

/-- An operation that changes one entry changes the translations of its block only. -/
def ChangesBlock (level : Nat) (gpa : PhysAddr) (ept after : Ept) : Prop :=
  ∀ page, after.pages page ≠ ept.pages page → inBlock level page gpa = true

theorem ChangesBlock.refl (level : Nat) (gpa : PhysAddr) (ept : Ept) : ChangesBlock level gpa ept ept :=
  fun _ changed => absurd rfl changed

theorem ChangesBlock.trans (first : ChangesBlock low gpa ept next)
    (second : ChangesBlock low gpa next after) : ChangesBlock low gpa ept after := by
  intro page changed
  by_cases same : next.pages page = ept.pages page
  · exact second page (by rwa [same])
  · exact first page same

theorem ChangesBlock.of_leaf (same : ∀ address, after.leaf address = ept.leaf address) :
    ChangesBlock low gpa ept after := by
  intro page changed
  rw [Ept.pages, Ept.pages, same] at changed
  exact absurd rfl changed

theorem Stored.changesBlock (stored : Stored ept after low slot epte) (tree : EptTree ept)
    (inside : gpa.toNat < 2 ^ 48) (small : low ≤ 3)
    (leads : ept.tableFor gpa.toNat low = some slot.dir) (index : slot.index = pdx low gpa.toNat) :
    ChangesBlock low gpa ept after := by
  intro page changed
  rw [Ept.pages, Ept.pages] at changed
  split at changed
  · rename_i pageInside
    rw [stored.leaf_eq tree (Ept.tableFor_inside leads)] at changed
    split at changed
    · rename_i through
      have upper := RadixTree.tableAt_unique (gpaRoute_lt (page * 4096)) (gpaRoute_lt gpa.toNat)
        (tree.once slot.dir) through.1 leads
      rw [inBlock, beq_iff_eq]
      refine same_block_of_pdx (by omega) inside (4 - low) (by omega) fun level above bound => ?_
      rcases Nat.eq_or_lt_of_le above with rfl | higher
      · exact through.2.trans index
      · exact upper level higher bound
    · exact absurd rfl changed
  · exact absurd rfl changed

/-! A fault. -/

theorem eptInstall_changesBlock (makeWrite : Bool) (gup : GupPage) (tree : EptTree ept)
    (fresh : Fresh ept supply) (inside : gpa.toNat < 2 ^ 48) :
    ChangesBlock gup.level gpa ept (eptInstall config makeWrite gpa gup supply ept).2 := by
  have small := gup.level_le
  have installs := eptInstall_installs config makeWrite gpa gup tree fresh
  generalize eptInstall config makeWrite gpa gup supply ept = result at installs
  cases installs with
  | failed ret grown grows => exact ChangesBlock.of_leaf grows.leaf
  | entered grown emptied slot grows leads index empties =>
      have place := Ept.tableFor_inside leads
      have bound : slot.index < nptentries := by
        rw [index]
        exact pdx_lt_nptentries _ _
      have emptyTree := empties.tree grows.tree place bound
      have stored := eptEnterPage_stored config makeWrite gup empties.zero
      have first : ChangesBlock gup.level gpa ept grown := ChangesBlock.of_leaf grows.leaf
      have second := empties.stored.changesBlock grows.tree inside (by omega) leads index
      have third := stored.changesBlock emptyTree inside (by omega)
        (empties.stored.tableFor grows.tree leads) index
      exact (first.trans second).trans third

theorem eptSetPfnmapEpte_changesBlock (makeWrite : Bool) (source : PfnSource) (tree : EptTree ept)
    (fresh : Fresh ept supply) (inside : gpa.toNat < 2 ^ 48) :
    ChangesBlock 0 gpa ept (eptSetPfnmapEpte config makeWrite gpa source supply ept).2 := by
  obtain ⟨grown, found⟩ := eptLookupGpa_grown gpa tree (Nat.zero_le 3) fresh
  unfold eptSetPfnmapEpte
  split
  · exact ChangesBlock.refl 0 gpa ept
  · rename_i number followed
    rcases result : eptLookupGpa supply gpa 0 true ept with ⟨ret | slot, next⟩
    · rw [result] at grown
      exact ChangesBlock.of_leaf grown.leaf
    · rw [result] at grown found
      obtain ⟨index, leads⟩ := found slot rfl
      have place := Ept.tableFor_inside leads
      have bound : slot.index < nptentries := by
        rw [index]
        exact pdx_lt_nptentries _ _
      dsimp only at grown leads place ⊢
      have empties := eptClearFound_emptied grown.tree place bound
      generalize (if eptePresent (next.mem slot.dir slot.index) then (eptClearEpte slot next).2
        else next) = emptied at empties
      have emptyTree := empties.tree grown.tree place bound
      have leaf := pfnmapFlags_leaf config.adEnabled makeWrite (number <<< 12)
      have stored : Stored emptied (emptied.setEpte slot (epteAddr (number <<< 12) |||
          eptLeafFlags config.adEnabled makeWrite pfnmapFlags)) 0 slot _ :=
        stored_of_zero leaf (Nat.zero_le 2) empties.zero rfl rfl rfl rfl
      have first : ChangesBlock 0 gpa ept next := ChangesBlock.of_leaf grown.leaf
      have second := empties.stored.changesBlock grown.tree inside (by omega) leads index
      have third := stored.changesBlock emptyTree inside (by omega)
        (empties.stored.tableFor grown.tree leads) index
      exact (first.trans second).trans third

theorem vmxDoEptFault_changesBlock (faultFlags : BitVec 32) (gup : Option GupPage) (source : PfnSource)
    (tree : EptTree ept) (fresh : Fresh ept supply) (inside : gpa.toNat < 2 ^ 48) :
    ChangesBlock (faultLevel gup) gpa ept
      (vmxDoEptFault config gpa faultFlags gup source supply ept).2 := by
  unfold vmxDoEptFault eptSetEpte
  split
  · exact ChangesBlock.refl _ gpa ept
  · cases gup with
    | none => exact eptSetPfnmapEpte_changesBlock _ source tree fresh inside
    | some gup =>
        have held : Fresh (ept.getPage gup.page) supply := ⟨fresh.unused, fresh.apart⟩
        exact eptInstall_changesBlock _ gup (tree.getPage gup.page) held inside

/-! The callbacks. -/

/-- A callback that changes a translation flushes it. -/
def SyncKind.covers : SyncKind → Nat → Prop
  | .individualAddr gpa, page => page = gpa.toNat / 4096
  | .vcpu, _ => True

theorem eptInvalidatePage_changed (addr : VirtAddr) (tree : EptTree ept)
    (inside : (hvaToGpa config.physBits config.mm addr).toNat < 2 ^ 48 ∨
      hvaToGpa config.physBits config.mm addr = addrInval) :
    (eptInvalidatePage config addr ept).2 = ept ∨ (eptInvalidatePage config addr ept).1 = 1 ∧
      ChangesBlock 0 (hvaToGpa config.physBits config.mm addr) ept (eptInvalidatePage config addr ept).2 := by
  rw [eptInvalidatePage]
  rcases eptFind_cases config addr tree with ⟨ret, failed, _⟩ | ⟨table, valid, leads, found⟩
  · rw [failed]
    exact Or.inl rfl
  · rw [found]
    obtain ⟨place, bound⟩ := eptFind_inside tree found
    have empties := eptClear_leaf_emptied tree place bound
    have changes := empties.stored.changesBlock tree (inside.resolve_right valid) (by omega) leads rfl
    simp only [clearFound, eptClearEpte] at changes ⊢
    split at changes
    · rename_i zero
      rw [if_pos zero]
      exact Or.inl rfl
    · rename_i nonzero
      rw [if_neg nonzero]
      exact Or.inr ⟨rfl, changes⟩

/-- What a callback leaves: a tree, and every change of a translation is to be flushed. -/
structure CallbackSyncs (ept : Ept) (sync : Option SyncKind) (after : Ept) : Prop where
  tree : EptTree after
  syncs : ∀ page, after.pages page ≠ ept.pages page → ∃ kind, sync = some kind ∧ kind.covers page

theorem CallbackSyncs.nothing (sync : Option SyncKind) (tree : EptTree ept) : CallbackSyncs ept sync ept :=
  ⟨tree, fun _ changed => absurd rfl changed⟩

theorem hvaToGpa_inside (wide : 32 ≤ config.physBits) (narrow : config.physBits ≤ 48) (addr : VirtAddr)
    (valid : hvaToGpa config.physBits config.mm addr ≠ addrInval) :
    (hvaToGpa config.physBits config.mm addr).toNat < 2 ^ 48 := by
  have inside := hvaToGpa_lt wide (by omega) valid
  rw [physEnd_toNat (by omega)] at inside
  exact Nat.lt_of_lt_of_le inside (Nat.pow_le_pow_right (by decide) narrow)

theorem invalidatePageSync_syncs (wide : 32 ≤ config.physBits) (narrow : config.physBits ≤ 48)
    {addr : VirtAddr} {sync : Option SyncKind} (tree : EptTree ept)
    (done : invalidatePageSync config addr ept = (sync, after)) : CallbackSyncs ept sync after := by
  have inside : (hvaToGpa config.physBits config.mm addr).toNat < 2 ^ 48 ∨
      hvaToGpa config.physBits config.mm addr = addrInval := by
    by_cases valid : hvaToGpa config.physBits config.mm addr = addrInval
    · exact Or.inr valid
    · exact Or.inl (hvaToGpa_inside wide narrow addr valid)
  rw [invalidatePageSync, Prod.mk.injEq] at done
  obtain ⟨rfl, rfl⟩ := done
  rcases eptInvalidatePage_changed addr tree inside with same | ⟨cleared, changes⟩
  · rw [same]
    exact CallbackSyncs.nothing _ tree
  · rw [cleared, if_pos (by decide)]
    exact ⟨(eptInvalidatePage_clears addr tree).tree,
      fun page changed => ⟨_, rfl, inBlock_zero.mp (changes page changed)⟩⟩

/-- A loop that needs no flush found no entry. -/
theorem invalidateLoopSync_idle {stop : VirtAddr} {fuel : Nat} {syncNeeded : Bool} {pass : VirtAddr × Ept}
    (done : invalidateLoopSync config stop fuel syncNeeded pass = some (false, after)) :
    syncNeeded = false ∧ after = pass.2 := by
  induction fuel generalizing syncNeeded pass with
  | zero => simp [invalidateLoopSync] at done
  | succ fuel ih =>
      rw [invalidateLoopSync] at done
      split at done
      · obtain ⟨needed, same⟩ := ih done
        rcases found : eptFind config pass.1 pass.2 with ret | slot
        · rw [found] at needed
          rw [found, rangePass] at same
          exact ⟨((Bool.or_eq_false_iff).mp needed).1, same⟩
        · rw [found] at needed
          simp [Except.isOk, Except.toBool] at needed
      · obtain ⟨isNeeded, isDone⟩ := Prod.mk.inj (Option.some.inj done)
        exact ⟨isNeeded, isDone.symm⟩

theorem eptCallback_syncs (wide : 32 ≤ config.physBits) (narrow : config.physBits ≤ 48)
    {callback : EptCallback} {sync : Option SyncKind} (tree : EptTree ept)
    (done : eptCallback config ept callback = some (sync, after)) : CallbackSyncs ept sync after := by
  cases callback with
  | invalidatePage addr | changePte addr =>
      exact invalidatePageSync_syncs wide narrow tree (Option.some.inj done)
  | clearFlushYoung addr =>
      rw [eptCallback, Option.some.injEq] at done
      split at done
      · exact invalidatePageSync_syncs wide narrow tree done
      · obtain ⟨rfl, rfl⟩ := Prod.mk.inj done
        rw [eptCheckPageAccessed, accessedFound_state]
        exact CallbackSyncs.nothing _ tree
  | invalidateRangeStart start stop =>
      rw [eptCallback, Option.map_eq_some_iff] at done
      obtain ⟨⟨syncNeeded, cleared⟩, looped, isDone⟩ := done
      obtain ⟨rfl, rfl⟩ := Prod.mk.inj isDone
      cases syncNeeded with
      | false =>
          obtain ⟨_, rfl⟩ := invalidateLoopSync_idle looped
          exact CallbackSyncs.nothing _ tree
      | true =>
          have isLoop : invalidateLoop config stop rangePasses (start, ept) = some cleared := by
            rw [← invalidateLoopSync_loop stop rangePasses false, looped, Option.map_some]
          exact ⟨(invalidateLoop_balanced stop rangePasses (start, ept) tree isLoop).1,
            fun _ _ => ⟨_, rfl, trivial⟩⟩

end RdmaPaging
