import RdmaPaging.EptTree

/-!
The references of an EPT. A fault takes one reference on a page and leaves it with the
entry that maps the page, so in every reachable EPT the references on a page are the
entries that map it.
-/

namespace RdmaPaging

open RadixTree (Within occurrences tally setWord)

/-- The references on a page that no entry accounts for. -/
def Ept.surplus (ept : Ept) (page : PhysAddr) : Int := ept.refs page - ept.mapped page

variable {ept next emptied : Ept} {config : EptConfig} {low : Nat} {slot : PteRef} {epte : Epte}

theorem Ept.getPage_surplus (ept : Ept) (page other : PhysAddr) :
    (ept.getPage page).surplus other = ept.surplus other + if other = page then 1 else 0 := by
  have same : (ept.getPage page).mapped other = ept.mapped other := rfl
  rw [Ept.surplus, Ept.surplus, same]
  simp only [Ept.getPage, Function.update_apply]
  split
  · rename_i isPage
    rw [isPage]
    omega
  · omega

theorem Ept.putPage_surplus (ept : Ept) (page other : PhysAddr) :
    (ept.putPage page).surplus other = ept.surplus other - if other = page then 1 else 0 := by
  have same : (ept.putPage page).mapped other = ept.mapped other := rfl
  rw [Ept.surplus, Ept.surplus, same]
  simp only [Ept.putPage, Function.update_apply]
  split
  · rename_i isPage
    rw [isPage]
    omega
  · omega

theorem Grown.surplus (grown : Grown ept next) (page : PhysAddr) :
    next.surplus page = ept.surplus page := by
  rw [Ept.surplus, Ept.surplus, grown.mapped, grown.refs]

theorem Emptied.surplus (emptied : Emptied ept next low slot) (tree : EptTree ept)
    (inside : ept.Inside low slot.dir) (bound : slot.index < nptentries) (page : PhysAddr) :
    next.surplus page = ept.surplus page := by
  have balance := emptied.stored.mapped tree inside bound page
  have refs := emptied.refs page
  have nothing : pageRef page epteNone = 0 := pageRef_zero page
  rw [Ept.surplus, Ept.surplus]
  omega

theorem Emptied.tree (emptied : Emptied ept next low slot) (tree : EptTree ept)
    (inside : ept.Inside low slot.dir) (bound : slot.index < nptentries) : EptTree next :=
  emptied.stored.tree tree inside bound (Or.inl rfl)

theorem Emptied.zero (emptied : Emptied ept next low slot) :
    next.mem slot.dir slot.index = 0#64 := by
  rw [emptied.stored.mem, setWord, if_pos ⟨rfl, rfl⟩]
  rfl

theorem Stored.tableFor {gpa : Nat} (stored : Stored ept next low slot epte) (tree : EptTree ept)
    (leads : ept.tableFor gpa low = some slot.dir) : next.tableFor gpa low = some slot.dir := by
  rw [Ept.tableFor, stored.mem, stored.root]
  exact RadixTree.tableAt_setWord _ _ (gpaRoute_lt gpa)
    (tree.levels (Ept.tableFor_inside leads)) leads

/-! What a fault does. -/

/-- The entry that a page takes. -/
def pageEntry (config : EptConfig) (makeWrite : Bool) (page : GupPage) : Epte :=
  if page.level = 0 then
    epteAddr page.page ||| eptLeafFlags config.adEnabled makeWrite pageFlags
  else epteAddr page.head ||| (eptLeafFlags config.adEnabled makeWrite pageFlags ||| epteSz)

theorem GupPage.level_le (page : GupPage) : page.level ≤ 2 := by
  unfold GupPage.level
  split
  · omega
  · split <;> omega

theorem pageEntry_leaf (config : EptConfig) (makeWrite : Bool) (page : GupPage) :
    LeafEntry page.level (pageEntry config makeWrite page) := by
  unfold pageEntry
  split
  · rename_i small
    rw [small]
    exact pageFlags_leaf _ _ _
  · rename_i huge
    exact hugeFlags_leaf _ _ _ huge

theorem LeafEntry.no_table (leaf : LeafEntry low epte) (small : low ≤ 2) :
    ∀ lower, low = lower + 1 → eptTable lower epte = none := by
  rintro lower rfl
  exact leaf.table (by omega)

/-- A leaf entry stored in an empty place. -/
theorem stored_of_zero (leaf : LeafEntry low epte) (small : low ≤ 2)
    (zero : ept.mem slot.dir slot.index = 0#64) (mem : next.mem = (ept.setEpte slot epte).mem)
    (root : next.root = ept.root) (taken : next.taken = ept.taken)
    (freed : next.freed = ept.freed) : Stored ept next low slot epte where
  mem := mem
  root := root
  taken := taken
  freed := fun page => by
    rw [freed, zero, Ept.occursUnder_leaf (fun lower _ => eptTable_zero lower), Nat.add_zero]
  leaf := leaf.no_table small

theorem eptEnterPage_stored (config : EptConfig) (makeWrite : Bool) (page : GupPage)
    (zero : ept.mem slot.dir slot.index = 0#64) :
    Stored ept (eptEnterPage config makeWrite page slot ept) page.level slot
      (pageEntry config makeWrite page) := by
  have leaf := pageEntry_leaf config makeWrite page
  unfold eptEnterPage pageEntry at *
  split
  · rename_i small
    rw [if_pos small] at leaf
    exact stored_of_zero leaf page.level_le zero rfl rfl rfl rfl
  · rename_i huge
    rw [if_neg huge] at leaf
    exact stored_of_zero leaf page.level_le zero rfl rfl rfl rfl

/-- The outcomes of the part of a fault under the lock: the lookup failed, or the entry was
emptied and the page entered. -/
inductive Installs (config : EptConfig) (makeWrite : Bool) (gpa : PhysAddr) (page : GupPage)
    (ept : Ept) : Int × Ept → Prop
  | failed (ret : Int) (grown : Ept) : Grown ept grown →
      Installs config makeWrite gpa page ept (ret, grown.putPage page.page)
  | entered (grown emptied : Ept) (slot : PteRef) : Grown ept grown →
      grown.tableFor gpa.toNat page.level = some slot.dir →
      slot.index = pdx page.level gpa.toNat → Emptied grown emptied page.level slot →
      Installs config makeWrite gpa page ept (0, eptEnterPage config makeWrite page slot emptied)

theorem eptInstall_installs (config : EptConfig) (makeWrite : Bool) (gpa : PhysAddr)
    (page : GupPage) {supply : Supply} (tree : EptTree ept) (fresh : Fresh ept supply) :
    Installs config makeWrite gpa page ept (eptInstall config makeWrite gpa page supply ept) := by
  have small := page.level_le
  obtain ⟨grown, found⟩ := eptLookupGpa_grown gpa tree (show page.level ≤ 3 by omega) fresh
  unfold eptInstall
  rcases result : eptLookupGpa supply gpa page.level true ept with ⟨ret | slot, next⟩
  · rw [result] at grown
    exact .failed ret next grown
  · rw [result] at grown found
    obtain ⟨index, leads⟩ := found slot rfl
    have bound : slot.index < nptentries := by
      rw [index]
      exact pdx_lt_nptentries _ _
    exact .entered next _ slot grown leads index
      (eptClearOld_emptied grown.tree small (Ept.tableFor_inside leads) bound)

theorem pageRef_entry {page flags : Epte} (other : PhysAddr) (present : eptePresent flags = true)
    (ordinary : flags &&& eptePfnmap = 0#64) (outside : epteAddr flags = 0#64) :
    pageRef other (epteAddr page ||| flags) = if other = epteAddr page then 1 else 0 := by
  have isPresent : eptePresent (epteAddr page ||| flags) = true := by
    rwa [eptePresent, entry_and _ _ _ (by decide), ← eptePresent]
  have notPfn : (epteAddr page ||| flags) &&& eptePfnmap = 0#64 := by
    rwa [entry_and _ _ _ (by decide)]
  simp only [pageRef, isPresent, notPfn, epteAddr_or page flags outside, true_and]
  by_cases same : other = epteAddr page
  · rw [if_pos same, if_pos same.symm]
  · rw [if_neg same, if_neg (Ne.symm same)]

theorem pageRef_pfnmap (page : PhysAddr) (adEnabled makeWrite : Bool) (number : Epte) :
    pageRef page (epteAddr number ||| eptLeafFlags adEnabled makeWrite pfnmapFlags) = 0 := by
  rw [pageRef, if_neg]
  rintro ⟨_, zero, _⟩
  rw [entry_and _ _ _ (by decide)] at zero
  revert zero
  cases makeWrite <;> cases adEnabled <;> decide

theorem Stored.surplus (stored : Stored ept next low slot epte) (tree : EptTree ept)
    (inside : ept.Inside low slot.dir) (bound : slot.index < nptentries)
    (zero : ept.mem slot.dir slot.index = 0#64) (page : PhysAddr) :
    (next.mapped page : Int) = ept.mapped page + pageRef page epte := by
  have balance := stored.mapped tree inside bound page
  rw [zero, Ept.mappedUnder_leaf (fun lower _ => eptTable_zero lower), pageRef_zero] at balance
  omega

theorem eptEnterPage_refs (config : EptConfig) (makeWrite : Bool) (page : GupPage)
    (slot : PteRef) (ept : Ept) (other : PhysAddr) :
    (eptEnterPage config makeWrite page slot ept).refs other =
      ept.refs other + pageRef other (pageEntry config makeWrite page) -
        if other = page.page.val then 1 else 0 := by
  unfold eptEnterPage pageEntry
  split
  · rw [pageRef_entry other (by cases makeWrite <;> cases config.adEnabled <;> decide)
      (by cases makeWrite <;> cases config.adEnabled <;> decide)
      (by cases makeWrite <;> cases config.adEnabled <;> decide), page.page.2]
    simp only [Ept.setEpte]
    split <;> simp
  · rw [pageRef_entry other (by cases makeWrite <;> cases config.adEnabled <;> decide)
      (by cases makeWrite <;> cases config.adEnabled <;> decide)
      (by cases makeWrite <;> cases config.adEnabled <;> decide), page.head.2]
    simp only [Ept.setEpte, Ept.getPage, Ept.putPage, Function.update_apply]
    grind

theorem EptTree.getPage (tree : EptTree ept) (page : PhysAddr) : EptTree (ept.getPage page) :=
  ⟨tree.tables, tree.once, tree.shape⟩

theorem EptTree.putPage (tree : EptTree ept) (page : PhysAddr) : EptTree (ept.putPage page) :=
  ⟨tree.tables, tree.once, tree.shape⟩

/-- The reference on the page goes to its entry or is put. -/
theorem Installs.kept {makeWrite : Bool} {gpa : PhysAddr} {page : GupPage} {result : Int × Ept}
    (installs : Installs config makeWrite gpa page ept result) :
    EptTree result.2 ∧ ∀ other, result.2.surplus other =
      ept.surplus other - if other = page.page.val then 1 else 0 := by
  cases installs with
  | failed ret grown grows =>
      refine ⟨grows.tree.putPage _, fun other => ?_⟩
      rw [Ept.putPage_surplus, grows.surplus]
  | entered grown emptied slot grows leads index empties =>
      have inside := Ept.tableFor_inside leads
      have bound : slot.index < nptentries := by
        rw [index]
        exact pdx_lt_nptentries _ _
      have emptyTree := empties.tree grows.tree inside bound
      have place := Ept.tableFor_inside (empties.stored.tableFor grows.tree leads)
      have stored := eptEnterPage_stored config makeWrite page empties.zero
      have leaf := pageEntry_leaf config makeWrite page
      refine ⟨stored.tree emptyTree place bound (leaf.shaped page.level_le), fun other => ?_⟩
      have refs := eptEnterPage_refs config makeWrite page slot emptied other
      have mapped := stored.surplus emptyTree place bound empties.zero other
      have before := empties.surplus grows.tree inside bound other
      have first := grows.surplus other
      simp only [Ept.surplus] at before first ⊢
      omega

/-! The steps. -/

/-- The step kept the tree and the references that no entry accounts for. -/
structure EptBalanced (before after : Ept) : Prop where
  tree : EptTree after
  surplus : ∀ page, after.surplus page = before.surplus page

theorem EptBalanced.refl (tree : EptTree ept) : EptBalanced ept ept := ⟨tree, fun _ => rfl⟩

theorem EptBalanced.trans {first second third : Ept} (sooner : EptBalanced first second)
    (later : EptBalanced second third) : EptBalanced first third :=
  ⟨later.tree, fun page => (later.surplus page).trans (sooner.surplus page)⟩

theorem Emptied.balanced (emptied : Emptied ept next low slot) (tree : EptTree ept)
    (inside : ept.Inside low slot.dir) (bound : slot.index < nptentries) : EptBalanced ept next :=
  ⟨emptied.tree tree inside bound, emptied.surplus tree inside bound⟩

theorem eptClear_leaf_emptied (tree : EptTree ept) (inside : ept.Inside 0 slot.dir)
    (bound : slot.index < nptentries) : Emptied ept (eptClearEpte slot ept).2 0 slot :=
  eptClearEpte_emptied (tree.shape 0 _ _ inside bound) (fun lower isLevel => by omega)

/-- What a PFN mapping does with the entry that it replaces. -/
theorem eptClearFound_emptied (tree : EptTree ept) (inside : ept.Inside 0 slot.dir)
    (bound : slot.index < nptentries) :
    Emptied ept
      (if eptePresent (ept.mem slot.dir slot.index) then (eptClearEpte slot ept).2 else ept) 0
      slot := by
  split
  · exact eptClear_leaf_emptied tree inside bound
  · rename_i absent
    exact emptied_of_zero (tree.empty inside bound (by simpa using absent))

theorem eptSetPfnmapEpte_balanced (makeWrite : Bool) (gpa : PhysAddr) (source : PfnSource)
    {supply : Supply} (tree : EptTree ept) (fresh : Fresh ept supply) :
    EptBalanced ept (eptSetPfnmapEpte config makeWrite gpa source supply ept).2 := by
  obtain ⟨grown, found⟩ := eptLookupGpa_grown gpa tree (Nat.zero_le 3) fresh
  unfold eptSetPfnmapEpte
  split
  · exact EptBalanced.refl tree
  · rename_i number followed
    rcases result : eptLookupGpa supply gpa 0 true ept with ⟨ret | slot, next⟩
    · rw [result] at grown
      exact ⟨grown.tree, grown.surplus⟩
    · rw [result] at grown found
      obtain ⟨index, leads⟩ := found slot rfl
      have inside := Ept.tableFor_inside leads
      have bound : slot.index < nptentries := by
        rw [index]
        exact pdx_lt_nptentries _ _
      dsimp only at grown leads inside ⊢
      have empties := eptClearFound_emptied grown.tree inside bound
      generalize (if eptePresent (next.mem slot.dir slot.index) then (eptClearEpte slot next).2
        else next) = emptied at empties
      have emptyTree := empties.tree grown.tree inside bound
      have place := Ept.tableFor_inside (empties.stored.tableFor grown.tree leads)
      have leaf := pfnmapFlags_leaf config.adEnabled makeWrite (number <<< 12)
      have stored := stored_of_zero leaf (Nat.zero_le 2) empties.zero rfl rfl rfl rfl
      refine ⟨stored.tree emptyTree place bound (leaf.shaped (Nat.zero_le 2)), fun page => ?_⟩
      have mapped := stored.surplus emptyTree place bound empties.zero page
      have before := empties.surplus grown.tree inside bound page
      have first := grown.surplus page
      have refs : (emptied.setEpte slot (epteAddr (number <<< 12) |||
          eptLeafFlags config.adEnabled makeWrite pfnmapFlags)).refs page = emptied.refs page := rfl
      rw [pageRef_pfnmap] at mapped
      simp only [Ept.surplus] at before first ⊢
      omega

theorem eptSetEpte_balanced (makeWrite : Bool) (gpa : PhysAddr) (gup : Option GupPage)
    (source : PfnSource) {supply : Supply} (tree : EptTree ept) (fresh : Fresh ept supply) :
    EptBalanced ept (eptSetEpte config makeWrite gpa gup source supply ept).2 := by
  unfold eptSetEpte
  split
  · exact eptSetPfnmapEpte_balanced makeWrite gpa source tree fresh
  · rename_i page
    have held : Fresh (ept.getPage page.page) supply := ⟨fresh.unused, fresh.apart⟩
    obtain ⟨after, surplus⟩ :=
      (eptInstall_installs config makeWrite gpa page (tree.getPage page.page) held).kept
    refine ⟨after, fun other => ?_⟩
    rw [surplus other, Ept.getPage_surplus]
    omega

/-- What the callbacks find: no entry of level 0, or the entry at the end of the way. -/
theorem eptFind_cases (config : EptConfig) (addr : VirtAddr) (tree : EptTree ept) :
    (∃ ret, eptFind config addr ept = .error ret ∧
      (hvaToGpa config.physBits config.mm addr ≠ addrInval →
        ept.tableFor (hvaToGpa config.physBits config.mm addr).toNat 0 = none)) ∨
    ∃ table, hvaToGpa config.physBits config.mm addr ≠ addrInval ∧
      ept.tableFor (hvaToGpa config.physBits config.mm addr).toNat 0 = some table ∧
      eptFind config addr ept =
        .ok ⟨table, pdx 0 (hvaToGpa config.physBits config.mm addr).toNat⟩ := by
  unfold eptFind
  by_cases invalid : hvaToGpa config.physBits config.mm addr = addrInval
  · exact Or.inl ⟨-einval, if_pos invalid, fun valid => absurd invalid valid⟩
  · obtain ⟨ret, result⟩ := eptLookupGpa_read (fun _ => none)
      (hvaToGpa config.physBits config.mm addr) tree
    dsimp only
    rw [if_neg invalid, result]
    rcases ept.tableFor (hvaToGpa config.physBits config.mm addr).toNat 0 with _ | table
    · exact Or.inl ⟨ret, rfl, fun _ => rfl⟩
    · exact Or.inr ⟨table, invalid, rfl, rfl⟩

theorem eptFind_inside {addr : VirtAddr} (tree : EptTree ept)
    (found : eptFind config addr ept = .ok slot) :
    ept.Inside 0 slot.dir ∧ slot.index < nptentries := by
  rcases eptFind_cases config addr tree with ⟨ret, failed, _⟩ | ⟨table, _, leads, isSlot⟩
  · rw [failed] at found
    exact absurd found (by simp)
  · rw [isSlot, Except.ok.injEq] at found
    subst found
    exact ⟨Ept.tableFor_inside leads, pdx_lt_nptentries _ _⟩

theorem eptInvalidatePage_balanced (addr : VirtAddr) (tree : EptTree ept) :
    EptBalanced ept (eptInvalidatePage config addr ept).2 := by
  rw [eptInvalidatePage]
  rcases found : eptFind config addr ept with ret | slot
  · exact EptBalanced.refl tree
  · obtain ⟨inside, bound⟩ := eptFind_inside tree found
    exact (eptClear_leaf_emptied tree inside bound).balanced tree inside bound

theorem rangePass_balanced (pos : VirtAddr) (tree : EptTree ept) :
    EptBalanced ept (rangePass (eptFind config pos ept) pos ept).2 := by
  rcases found : eptFind config pos ept with ret | slot
  · exact EptBalanced.refl tree
  · obtain ⟨inside, bound⟩ := eptFind_inside tree found
    exact (eptClear_leaf_emptied tree inside bound).balanced tree inside bound

theorem invalidateLoop_balanced (stop : VirtAddr) (fuel : Nat) (place : VirtAddr × Ept)
    (tree : EptTree place.2) (ended : invalidateLoop config stop fuel place = some next) :
    EptBalanced place.2 next := by
  induction fuel generalizing place with
  | zero => exact absurd ended (by simp [invalidateLoop])
  | succ fuel ih =>
      obtain ⟨pos, ept⟩ := place
      rw [invalidateLoop] at ended
      split at ended
      · have pass : EptBalanced ept (rangePass (eptFind config pos ept) pos ept).2 :=
          rangePass_balanced pos tree
        exact pass.trans (ih _ pass.tree ended)
      · rw [Option.some.injEq] at ended
        rw [← ended]
        exact EptBalanced.refl tree

/-- 1 and 0x100 have no bit in common. -/
theorem flushWord_apart (flush : Bool) (epte : Epte) :
    (if flush then 1#64 else 0#64) &&& (epte &&& epteA) = 0 := by
  have disjoint : (if flush then 1#64 else 0#64) &&& epteA = 0#64 := by
    cases flush <;> decide
  rw [BitVec.and_comm epte, ← BitVec.and_assoc, disjoint, BitVec.zero_and]
  rfl

/-- The accessed bit is never cleared. -/
theorem accessedFound_state (found : Except Int PteRef) (flush : Bool) (ept : Ept) :
    (accessedFound found flush ept).2 = ept := by
  rcases found with ret | slot
  · rfl
  · simp only [accessedFound, flushWord_apart, ne_eq, not_true_eq_false, if_false]

theorem eptStep_balanced {action : EptAction} (tree : EptTree ept) (allowed : eptGuard ept action)
    (stepped : eptStep config ept action = some next) : EptBalanced ept next := by
  cases action with
  | fault gpa faultFlags gup source supply =>
      simp only [eptStep, Option.some.injEq] at stepped
      subst stepped
      unfold vmxDoEptFault
      split
      · exact EptBalanced.refl tree
      · exact eptSetEpte_balanced _ gpa gup source tree allowed
  | invalidatePage addr =>
      simp only [eptStep, eptMmuNotifierInvalidatePage, Option.some.injEq] at stepped
      subst stepped
      exact eptInvalidatePage_balanced addr tree
  | invalidateRangeStart start stop =>
      simp only [eptStep, eptMmuNotifierInvalidateRangeStart] at stepped
      exact invalidateLoop_balanced stop rangePasses (start, ept) tree stepped
  | changePte addr =>
      simp only [eptStep, eptMmuNotifierChangePte, Option.some.injEq] at stepped
      subst stepped
      exact eptInvalidatePage_balanced addr tree
  | clearFlushYoung addr =>
      simp only [eptStep, Option.some.injEq] at stepped
      subst stepped
      unfold eptMmuNotifierClearFlushYoung
      split
      · exact eptInvalidatePage_balanced addr tree
      · rw [eptCheckPageAccessed, accessedFound_state]
        exact EptBalanced.refl tree
  | testYoung addr =>
      simp only [eptStep, Option.some.injEq] at stepped
      subst stepped
      unfold eptMmuNotifierTestYoung
      split
      · exact EptBalanced.refl tree
      · rw [eptCheckPageAccessed, accessedFound_state]
        exact EptBalanced.refl tree

/-! Runs. -/

theorem vmxInitEpt_balanced {mem : PhysAddr → Nat → Epte} {page : Option PageFrame} {start : Ept}
    (init : vmxInitEpt mem page = .ok start) :
    EptTree start ∧ ∀ page, start.surplus page = 0 := by
  unfold vmxInitEpt at init
  split at init
  · exact absurd init (by simp)
  · rename_i root
    rw [Except.ok.injEq] at init
    subst init
    have blank : ∀ index < nptentries,
        (fun dir index => if dir = root.val then 0 else mem dir index) root.val index = 0#64 :=
      fun index _ => if_pos rfl
    have occurs : ∀ page, occurrences nptentries eptTable
        (fun dir index => if dir = root.val then 0 else mem dir index) page 3 root.val =
        if root.val = page then 1 else 0 :=
      fun page => RadixTree.weigh_blank 3 root.val blank eptTable_zero rfl
    refine ⟨⟨fun page => ?_, fun page => ?_, fun low table index inside bound => ?_⟩,
      fun page => ?_⟩
    · rw [Ept.occurs, occurs page]
      simp [List.count_cons]
    · rw [Ept.occurs, occurs page]
      split <;> omega
    · have isRoot : table = root.val := Within.of_blank inside blank eptTable_zero
      rw [isRoot]
      exact Or.inl (if_pos rfl)
    · have nothing : tally nptentries eptTable (fun _ _ => 0) (fun _ epte => pageRef page epte)
          (fun dir index => if dir = root.val then 0 else mem dir index) 3 root.val = 0 :=
        RadixTree.tally_blank 3 root.val blank eptTable_zero (fun _ => pageRef_zero page)
      rw [Ept.surplus, Ept.mapped, nothing]
      rfl

theorem reaches_balanced {mem : PhysAddr → Nat → Epte} {page : Option PageFrame} {start : Ept}
    (init : vmxInitEpt mem page = .ok start)
    (reached : Machine.Reaches (eptStep config) eptGuard start ept) :
    EptTree ept ∧ ∀ page, ept.surplus page = 0 := by
  refine reached.invariant (fun ept => EptTree ept ∧ ∀ page, ept.surplus page = 0)
    (vmxInitEpt_balanced init) ?_
  rintro state action next ⟨tree, none⟩ allowed stepped
  have balanced := eptStep_balanced tree allowed stepped
  exact ⟨balanced.tree, fun page => (balanced.surplus page).trans (none page)⟩

/-- An entry that names a table: its level, its table and its index. -/
def Ept.names (ept : Ept) (page : PhysAddr) (parent : Nat × PhysAddr × Nat) : Prop :=
  ept.Inside (parent.1 + 1) parent.2.1 ∧ parent.2.2 < nptentries ∧
    eptTable parent.1 (ept.mem parent.2.1 parent.2.2) = some page

theorem EptTree.one_parent (tree : EptTree ept) {page : PhysAddr}
    (live : ept.taken.count page ≠ ept.freed.count page) (notRoot : page ≠ ept.root) :
    ∃! parent, ept.names page parent := by
  have occurs : ept.occurs page ≠ 0 := by
    have balance := tree.tables page
    omega
  obtain ⟨low, inside⟩ := RadixTree.exists_within_of_occurrences occurs
  rcases inside.parent with ⟨_, isRoot⟩ | ⟨dir, index, above, bound, names⟩
  · exact absurd isRoot notRoot
  · refine ⟨(low, dir, index), ⟨above, bound, names⟩, ?_⟩
    rintro ⟨lower, otherDir, otherIndex⟩ ⟨otherAbove, otherBound, otherNames⟩
    obtain ⟨rfl, rfl, rfl⟩ := RadixTree.parent_unique (tree.once page) above bound names otherAbove
      otherBound otherNames
    rfl

/-- In every run the EPT holds one reference for each entry that maps a page and is not a PFN
mapping, each of its tables has one parent entry, and its end gives everything back once. -/
theorem ept_references_balance (config : EptConfig) (mem : PhysAddr → Nat → Epte)
    (page : Option PageFrame) {start ept : Ept} (init : vmxInitEpt mem page = .ok start)
    (run : Machine.Reaches (eptStep config) eptGuard start ept) :
    (∀ page, ept.refs page = ept.mapped page) ∧
    (∀ page, ept.taken.count page ≠ ept.freed.count page → page ≠ ept.root →
      ∃! parent, ept.names page parent) ∧
    (∀ page, ept.taken.count page = ept.freed.count page ∨
      ept.taken.count page = ept.freed.count page + 1) ∧
    (∀ page, (vmxDestroyEpt ept).refs page = 0) ∧
    (∀ page, (vmxDestroyEpt ept).freed.count page = (vmxDestroyEpt ept).taken.count page) := by
  obtain ⟨tree, surplus⟩ := reaches_balanced init run
  have frees := freeTable_frees 3 ept.root ept
  have held : ∀ page, ept.refs page = ept.mapped page := by
    intro page
    have none := surplus page
    rw [Ept.surplus] at none
    omega
  refine ⟨held, fun page live notRoot => tree.one_parent live notRoot, fun page => ?_,
    fun page => ?_, fun page => ?_⟩
  · have balance := tree.tables page
    have once := tree.once page
    omega
  · rw [vmxDestroyEpt, vmxFreeEpt, frees.refs page, held page, Ept.mapped]
    omega
  · have balance := tree.tables page
    rw [vmxDestroyEpt, vmxFreeEpt, frees.freed page, frees.taken, balance, Ept.occurs]

/-- An EPT with its root only, and pages for the tables of one fault. -/
def firstEpt : Ept where
  root := 0x1000#64
  mem := fun dir _ => if dir = 0x1000#64 then 0 else 0
  refs := fun _ => 0
  dirty := fun _ => false
  taken := [0x1000#64]
  freed := []

def threeTables : Supply
  | 3 => some ⟨0x2000#64, by decide⟩
  | 2 => some ⟨0x3000#64, by decide⟩
  | 1 => some ⟨0x4000#64, by decide⟩
  | _ => none

theorem threeTables_fresh : Fresh firstEpt threeTables := by
  refine ⟨fun level page supplied => ?_, fun level other page supplied again => ?_⟩
  · unfold threeTables at supplied
    split at supplied <;> simp only [Option.some.injEq, reduceCtorEq] at supplied <;>
      subst supplied <;> decide
  · unfold threeTables at supplied again
    split at supplied <;> split at again <;>
      simp only [Option.some.injEq, reduceCtorEq] at supplied again <;> subst supplied <;>
      first | rfl | exact absurd again (by decide)

/-- A page of 2 MB. -/
def hugePage : GupPage where
  page := ⟨0x40001000#64, by decide⟩
  head := ⟨0x40000000#64, by decide⟩
  order := 9

def usualEpt : EptConfig where
  physBits := 39
  mm := usualMm
  adEnabled := true

/-- The EPT after a fault on a page of 2 MB. -/
def hugeEpt : Ept :=
  (vmxDoEptFault usualEpt 0x200000#64 vmxEptFaultWrite (some hugePage) .noVma threeTables firstEpt).2

theorem hugeEpt_reached : Machine.Reaches (eptStep usualEpt) eptGuard firstEpt hugeEpt := by
  have allowed : eptGuard firstEpt (.fault 0x200000#64 vmxEptFaultWrite (some hugePage) .noVma
      threeTables) := threeTables_fresh
  have stepped : eptStep usualEpt firstEpt (.fault 0x200000#64 vmxEptFaultWrite (some hugePage)
      .noVma threeTables) = some hugeEpt := rfl
  exact Machine.Reaches.tail .refl allowed stepped

theorem ept_references_balance_huge :
    hugeEpt.refs 0x40000000#64 = 1 ∧ hugeEpt.refs 0x40000000#64 = hugeEpt.mapped 0x40000000#64 ∧
      (vmxDestroyEpt hugeEpt).refs 0x40000000#64 = 0 := by
  have balance := ept_references_balance usualEpt (fun _ _ => 0) (some ⟨0x1000#64, by decide⟩)
    (show vmxInitEpt (fun _ _ => 0) (some ⟨0x1000#64, by decide⟩) = .ok firstEpt from rfl)
    hugeEpt_reached
  exact ⟨by decide +kernel, balance.1 _, balance.2.2.2.1 _⟩

end RdmaPaging
