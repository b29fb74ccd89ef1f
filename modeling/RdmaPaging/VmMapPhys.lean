import RdmaPaging.VmLeaves

/-!
`dune_vm_map_phys`. A call that returns 0 has entered every page of its range at the level of its
page size, and no leaf outside the range has changed.
-/

namespace RdmaPaging

open RadixTree

variable {root : PhysAddr} {vm : Vm}

/-- The tables that `dune_vm_map_phys` asks for. -/
def mapCreate (perm : Perm) : Create :=
  if perm.has permBig then .big else if perm.has permBig1gb then .big1gb else .normal

/-- The level of the entries that a call makes. -/
def mapLevel (perm : Perm) : Nat := targetLevel (mapCreate perm)

/-- The page size that the permissions choose. -/
def mapSize (perm : Perm) : Nat := entrySpan (mapLevel perm)

/-- An address of one of the canonical halves. -/
def Canonical (va : Nat) : Prop := va < 2 ^ 47 ∨ 2 ^ 64 - 2 ^ 47 ≤ va ∧ va < 2 ^ 64

/-- The range lies in one canonical half. -/
def OneHalf (va len : Nat) : Prop := va + len ≤ 2 ^ 47 ∨ 2 ^ 64 - 2 ^ 47 ≤ va ∧ va + len ≤ 2 ^ 64

/-- An entry of a larger size meets the range. It need not be present. -/
def LargerEntry (mem : PhysAddr → Nat → Ptent) (root : PhysAddr) (va len : Nat) (perm : Perm) : Prop :=
  ∃ at_, va ≤ at_ ∧ at_ < va + len ∧ mapLevel perm < (leafOf mem root at_).1 ∧
    pteBig (leafOf mem root at_).2 = true

/-- What is claimed of a call that returns 0. -/
structure MapsExactly (root : PhysAddr) (va len : Nat) (pa : PhysAddr) (perm : Perm) (before after : Vm) :
    Prop where
  inside : ∀ k < len, ∃ found, translate after.mem root (va + k) = some found ∧
    found.pa = pa + BitVec.ofNat 64 k ∧ found.writable = perm.has permW ∧
    found.user = perm.has permU ∧ found.noExecute = !perm.has permX
  outside : ∀ other, Canonical other → ¬ (va ≤ other ∧ other < va + len) →
    translate after.mem root other = translate before.mem root other

/-! The words. -/

theorem vmMapPhys_walk (va len : Nat) (pa : PhysAddr) (perm : Perm) : vmMapPhys root va len pa perm vm =
    pageWalk (mapPhysHelper (getPtePerm perm) va pa) (mapCreate perm) 3 root va (lastVa va len) vm := rfl

theorem getPtePerm_w (perm : Perm) : getPtePerm perm &&& pteW = if perm.has permW then pteW else 0 := by
  rw [getPtePerm]
  iterate 8 rw [orIf_and_apart _ _ (by decide)]
  rw [orIf_and, orIf_and_apart _ _ (by decide)]
  simp [orIf]

theorem getPtePerm_nx (perm : Perm) : getPtePerm perm &&& pteNx = if perm.has permX then 0 else pteNx := by
  rw [getPtePerm]
  iterate 7 rw [orIf_and_apart _ _ (by decide)]
  rw [orIf_and, orIf_and_apart _ _ (by decide), orIf_and_apart _ _ (by decide)]
  cases perm.has permX <;> simp [orIf]

theorem getPtePerm_u (perm : Perm) : getPtePerm perm &&& pteU = if perm.has permU then pteU else 0 := by
  rw [getPtePerm]
  iterate 6 rw [orIf_and_apart _ _ (by decide)]
  rw [orIf_and]
  iterate 3 rw [orIf_and_apart _ _ (by decide)]
  simp [orIf]

/-- The word that a call enters for a page at an offset. -/
def mappedWord (va : Nat) (pa : PhysAddr) (perm : Perm) (offset : Nat) : Ptent :=
  pteAddr (BitVec.ofNat 64 (blockStart 3 va + offset / mapSize perm * mapSize perm) - BitVec.ofNat 64 va + pa)
    ||| getPtePerm perm

/-- A flag of an entered word is a flag of the permissions. -/
theorem entered_flag (address : PhysAddr) (perm : Perm) {flag : Ptent} (outside : pteAddr flag = 0) :
    (pteAddr address ||| getPtePerm perm) &&& flag = getPtePerm perm &&& flag := by
  have apart : pteAddr address &&& flag = 0 := by
    rw [pteAddr, BitVec.and_assoc, BitVec.and_comm (0xffffffffff000#64)]
    rw [pteAddr] at outside
    rw [outside]
    exact BitVec.and_zero
  rw [BitVec.and_or_distrib_right, apart]
  simp

theorem entered_present (address : PhysAddr) {perm : Perm} (readable : perm.has permR = true) :
    ptePresent (pteAddr address ||| getPtePerm perm) = true := by
  have flag : (pteAddr address ||| getPtePerm perm) &&& pteP = getPtePerm perm &&& pteP :=
    entered_flag address perm (by decide)
  rw [getPtePerm_p, if_pos readable] at flag
  have masked : ∀ pte, pteFlags pte &&& pteP = pte &&& pteP := by
    intro pte
    rw [pteFlags, BitVec.and_assoc]
    rfl
  simp only [ptePresent, masked, flag]
  decide

theorem entered_big (address : PhysAddr) {perm : Perm} (sized : perm.sized = true) :
    pteBig (pteAddr address ||| getPtePerm perm) = true := by
  rw [pteBig_iff, entered_flag address perm (by decide), getPtePerm_ps, if_pos sized]
  decide

theorem mapLevel_sized {perm : Perm} (upper : mapLevel perm ≠ 0) :
    perm.sized = true ∧ (mapLevel perm = 1 ∨ mapLevel perm = 2) := by
  by_cases big : perm.has permBig = true
  · simp [Perm.sized, mapLevel, mapCreate, big, targetLevel]
  · by_cases huge : perm.has permBig1gb = true
    · simp [Perm.sized, mapLevel, mapCreate, big, huge, targetLevel]
    · simp [mapLevel, mapCreate, big, huge, targetLevel] at upper

theorem mapLevel_le (perm : Perm) : mapLevel perm ≤ 2 := by
  by_cases upper : mapLevel perm = 0
  · omega
  · rcases (mapLevel_sized upper).2 with one | two <;> omega

theorem mappedWord_big {va : Nat} {pa : PhysAddr} {perm : Perm} (upper : mapLevel perm ≠ 0) (offset : Nat) :
    pteBig (mappedWord va pa perm offset) = true :=
  entered_big _ (mapLevel_sized upper).1

/-- A word of a higher level is a leaf there. -/
theorem mappedWord_leaf {va lower : Nat} {pa : PhysAddr} {perm : Perm} (upper : mapLevel perm = lower + 1)
    (offset : Nat) : tableOf lower (mappedWord va pa perm offset) = none := by
  have notZero : mapLevel perm ≠ 0 := by omega
  rw [tableOf, if_pos]
  rw [bigSlot, mappedWord_big notZero]
  rcases (mapLevel_sized notZero).2 with one | two
  · simp [show lower = 0 by omega]
  · simp [show lower = 1 by omega]

/-! The walk. -/

/-- The offset lies in the range. -/
def InRange (va len offset : Nat) : Prop := va % 2 ^ 48 ≤ offset ∧ offset < va % 2 ^ 48 + len

/-- What holds of the root while a call is under way. -/
structure MapInv (before : Vm) (root : PhysAddr) (va len : Nat) (perm : Perm) (vm : Vm) : Prop where
  grounded : Grounded entryBuilt [treeOf root] vm
  outside : ∀ offset < 2 ^ 48, ¬ InRange va len offset →
    SameLeaf (leafOf vm.mem root offset) (leafOf before.mem root offset)
  small : ∀ offset < 2 ^ 48, InRange va len offset → mapLevel perm < (leafOf vm.mem root offset).1 →
    pteBig (leafOf vm.mem root offset).2 = false

section Walk

variable {before : Vm} {va len : Nat} {pa : PhysAddr} {perm : Perm}

theorem mappedWord_ne_zero (readable : perm.has permR = true) (offset : Nat) :
    mappedWord va pa perm offset ≠ 0 := by
  intro isZero
  have present : ptePresent (mappedWord va pa perm offset) = true := entered_present _ readable
  rw [isZero] at present
  exact absurd present (by decide)

/-- The leaf is that of the entered page. Without `PERM_R` the word may be blank, and so may be the
table that is to hold it. -/
def EnteredLeaf (va : Nat) (pa : PhysAddr) (perm : Perm) (offset : Nat) (leaf : Nat × Ptent) : Prop :=
  offset < 2 ^ 48 → SameLeaf leaf (mapLevel perm, mappedWord va pa perm offset)

theorem EnteredLeaf.readable {offset : Nat} {leaf : Nat × Ptent}
    (entered : EnteredLeaf va pa perm offset leaf) (readable : perm.has permR = true)
    (bound : offset < 2 ^ 48) :
    leaf = (mapLevel perm, mappedWord va pa perm offset) := by
  rcases entered bound with same | ⟨_, blank⟩
  · exact same
  · exact absurd blank (mappedWord_ne_zero readable offset)

theorem mapInv_leafRule : LeafRule root (MapInv before root va len perm) (EnteredLeaf va pa perm) where
  grounded := fun _ inv => inv.grounded
  failing := fun _ inv =>
    ⟨⟨inv.grounded.forest, ⟨inv.grounded.list.nodup, inv.grounded.list.inPool⟩, inv.grounded.fresh⟩,
      inv.outside, inv.small⟩
  growing := by
    intro vm next page inv _ grounded same
    refine ⟨grounded, fun offset bound out => (same offset).trans (inv.outside offset bound out),
      fun offset bound inside larger => ?_⟩
    rcases same offset with equal | ⟨blank, _⟩
    · rw [equal] at larger ⊢
      exact inv.small offset bound inside larger
    · rw [blank]
      decide
  same := fun _ _ _ same isDone bound => same.trans (isDone bound)

theorem lastVa_offset (half : OneHalf va len) (positive : 0 < len) :
    lastVa va len % 2 ^ 48 = va % 2 ^ 48 + len - 1 := by
  have noWrap : va + len ≤ 2 ^ 64 := by
    rcases half with lower | ⟨_, upper⟩ <;> omega
  rw [lastVa_eq positive noWrap]
  rcases half with lower | ⟨upper, _⟩ <;> omega

theorem mapSize_offset (vaAligned : mapSize perm ∣ va) : mapSize perm ∣ va % 2 ^ 48 := by
  have top : mapSize perm ∣ 2 ^ 48 := entrySpan_canonical (Nat.le_trans (mapLevel_le perm) (by decide))
  exact (Nat.dvd_mod_iff top).mpr vaAligned

/-- A page that the walk comes to lies in the range. -/
theorem page_inRange {offset other : Nat} (half : OneHalf va len) (positive : 0 < len)
    (vaAligned : mapSize perm ∣ va) (lenAligned : mapSize perm ∣ len)
    (between : Between 3 (mapLevel perm) va (lastVa va len) offset)
    (same : other / mapSize perm = offset / mapSize perm) : InRange va len other := by
  have pos : 0 < mapSize perm := entrySpan_pos _
  have span : entrySpan (3 + 1) = 2 ^ 48 := rfl
  obtain ⟨first, last⟩ := between
  rw [span] at first last
  rw [lastVa_offset half positive] at last
  change _ / mapSize perm ≤ offset / mapSize perm at first
  change offset / mapSize perm ≤ _ / mapSize perm at last
  rw [← same] at first last
  obtain ⟨start, isStart⟩ := mapSize_offset vaAligned
  obtain ⟨count, isLen⟩ := lenAligned
  have total : va % 2 ^ 48 + len = (start + count) * mapSize perm := by
    rw [isStart, isLen, Nat.mul_comm, Nat.mul_comm (mapSize perm), ← Nat.add_mul]
  constructor
  · rw [isStart, Nat.mul_div_cancel_left _ pos] at first
    rw [isStart, Nat.mul_comm]
    exact Nat.mul_le_of_le_div _ _ _ first
  · rw [total, ← Nat.div_lt_iff_lt_mul pos]
    apply Nat.lt_of_le_of_lt last
    rw [Nat.div_lt_iff_lt_mul pos, ← total]
    omega

theorem bigSlot_above {create : Create} {low : Nat} {pte : Ptent} (above : targetLevel create < low)
    (big : bigSlot low create pte = true) : pteBig pte = true ∧ bigSlot low .none pte = true := by
  have notBig : ¬ (create = .big ∧ low = 1) := by
    rintro ⟨rfl, rfl⟩
    exact Nat.lt_irrefl _ above
  have notHuge : ¬ (create = .big1gb ∧ low = 2) := by
    rintro ⟨rfl, rfl⟩
    exact Nat.lt_irrefl _ above
  simp only [bigSlot, Bool.or_eq_true, Bool.and_eq_true, decide_eq_true_eq] at big ⊢
  grind

/-- An entry that the walk comes to has an address of the range. -/
theorem entry_meets {low offset : Nat} (half : OneHalf va len) (positive : 0 < len)
    (between : Between 3 low va (lastVa va len) offset) :
    ∃ other, InRange va len other ∧ other / entrySpan low = offset / entrySpan low := by
  have span : entrySpan (3 + 1) = 2 ^ 48 := rfl
  have pos := entrySpan_pos low
  obtain ⟨first, last⟩ := between
  rw [span] at first last
  rw [lastVa_offset half positive] at last
  by_cases start : va % 2 ^ 48 / entrySpan low = offset / entrySpan low
  · exact ⟨va % 2 ^ 48, ⟨Nat.le_refl _, by omega⟩, start⟩
  · have later : va % 2 ^ 48 < offset / entrySpan low * entrySpan low := by
      rw [← Nat.div_lt_iff_lt_mul pos]
      omega
    have before := Nat.mul_le_of_le_div _ _ _ last
    exact ⟨offset / entrySpan low * entrySpan low, ⟨by omega, by omega⟩, Nat.mul_div_cancel _ pos⟩

/-- The walk calls its function at the level of the page size. -/
theorem visited_level {low offset : Nat} {dir : PhysAddr} (half : OneHalf va len) (positive : 0 < len)
    (inv : MapInv before root va len perm vm) (inside : offset < 2 ^ 48)
    (leads : tableFor vm.mem root low offset = some dir)
    (between : Between 3 low va (lastVa va len) offset) (above : mapLevel perm ≤ low)
    (visited : visitsWord (mapCreate perm) low (vm.mem dir (pdx low offset)) = true) :
    low = mapLevel perm := by
  by_contra other
  obtain ⟨lower, rfl⟩ : ∃ lower, low = lower + 1 := ⟨low - 1, by omega⟩
  have isBig : bigSlot (lower + 1) (mapCreate perm) (vm.mem dir (pdx (lower + 1) offset)) = true := by
    simpa [visitsWord] using visited
  have higher : targetLevel (mapCreate perm) < lower + 1 := by
    change mapLevel perm < lower + 1
    omega
  obtain ⟨big, slot⟩ := bigSlot_above higher isBig
  obtain ⟨address, inRange, same⟩ := entry_meets half positive between
  have bound : address < 2 ^ 48 := by
    have last := lastVa_offset half positive
    have highest := Nat.mod_lt (lastVa va len) (show 0 < 2 ^ 48 by decide)
    have high := inRange.2
    omega
  have leaf := leafOf_end leads same inside bound (by rw [tableOf, if_pos slot])
  have small := inv.small address bound inRange
  rw [leaf] at small
  have notBig := small higher
  rw [big] at notBig
  exact absurd notBig (by decide)

/-- A store of `__dune_vm_map_phys_helper`. -/
theorem mapPhysHelper_step {low offset : Nat} {dir : PhysAddr} (half : OneHalf va len) (positive : 0 < len)
    (vaAligned : mapSize perm ∣ va) (lenAligned : mapSize perm ∣ len)
    (inv : MapInv before root va len perm vm) (inside : offset < 2 ^ 48)
    (leads : tableFor vm.mem root low offset = some dir)
    (between : Between 3 low va (lastVa va len) offset) (aligned : entrySpan low ∣ offset)
    (above : mapLevel perm ≤ low)
    (visited : visitsWord (mapCreate perm) low (vm.mem dir (pdx low offset)) = true) :
    StepKeeps (outgrown maxPages) (MapInv before root va len perm)
      (fun offset vm => EnteredLeaf va pa perm offset (leafOf vm.mem root offset)) root low vm
      (mapPhysHelper (getPtePerm perm) va pa ⟨dir, pdx low offset⟩ (blockStart 3 va + offset) vm)
      fun other => other / entrySpan low = offset / entrySpan low := by
  obtain rfl := visited_level half positive inv inside leads between above visited
  have grounded := inv.grounded
  have table := tableFor_table leads
  have word : pteAddr (BitVec.ofNat 64 (blockStart 3 va + offset) - BitVec.ofNat 64 va + pa) |||
      getPtePerm perm = mappedWord va pa perm offset := by
    rw [mappedWord, mapSize, Nat.div_mul_cancel aligned]
  have stored : ∀ other < 2 ^ 48, leafOf (setWord vm.mem dir (pdx (mapLevel perm) offset)
      (mappedWord va pa perm offset)) root other =
      if other / mapSize perm = offset / mapSize perm then (mapLevel perm, mappedWord va pa perm offset)
      else leafOf vm.mem root other :=
    fun other bound => grounded.store_leaf leads inside bound fun _ upper => mappedWord_leaf upper offset
  have page : ∀ other, other / mapSize perm = offset / mapSize perm →
      mappedWord va pa perm other = mappedWord va pa perm offset := by
    intro other same
    rw [mappedWord, mappedWord, same]
  rw [mapPhysHelper, word]
  refine Or.inr ⟨⟨?_, ?_, ?_⟩, grounded.store_pointers table _ _, ?_, ?_⟩
  · refine grounded.storeLeaf table (pdx_bound _ _) (fun _ upper => mappedWord_leaf upper offset)
      (fun lower upper => ?_) grounded.list grounded.fresh
    have notZero : mapLevel perm ≠ 0 := by omega
    exact Or.inr ⟨(mapLevel_sized notZero).2, mappedWord_big notZero offset⟩
  · intro other bound out
    change SameLeaf (leafOf (setWord _ _ _ _) _ _) _
    rw [stored other bound, if_neg]
    · exact inv.outside other bound out
    · exact fun same => out (page_inRange half positive vaAligned lenAligned between same)
  · intro other bound inRange
    change _ < (leafOf (setWord _ _ _ _) _ _).1 → pteBig (leafOf (setWord _ _ _ _) _ _).2 = false
    rw [stored other bound]
    split
    · exact fun larger => absurd larger (Nat.lt_irrefl _)
    · exact inv.small other bound inRange
  · intro other isDone bound
    change SameLeaf (leafOf (setWord _ _ _ _) _ _) _
    rw [stored other bound]
    split
    · rename_i same
      rw [page other same]
      exact Or.inl rfl
    · exact isDone bound
  · intro _ other (same : other / mapSize perm = offset / mapSize perm) bound
    change SameLeaf (leafOf (setWord _ _ _ _) _ _) _
    rw [stored other bound, if_pos same, page other same]
    exact Or.inl rfl

theorem mapPhys_rule (before : Vm) (root pa : PhysAddr) (half : OneHalf va len) (positive : 0 < len)
    (vaAligned : mapSize perm ∣ va) (lenAligned : mapSize perm ∣ len) :
    RangeRule (outgrown maxPages) (MapInv before root va len perm)
      (fun offset vm => EnteredLeaf va pa perm offset (leafOf vm.mem root offset)) root va (lastVa va len)
      (mapPhysHelper (getPtePerm perm) va pa) (mapCreate perm) :=
  mapInv_leafRule.rangeRule (fun _ large => large) allocPage_outgrown (fun _ _ _ large => large)
    fun _ _ _ _ inv inside leads between aligned above visited =>
      mapPhysHelper_step half positive vaAligned lenAligned inv inside leads between aligned above visited

/-- A call that returns 0 has entered every page of the range and changed no other leaf. -/
theorem vmMapPhys_leaves (built : RootBuilt vm root) (half : OneHalf va len) (positive : 0 < len)
    (vaAligned : mapSize perm ∣ va) (lenAligned : mapSize perm ∣ len)
    (noLarger : ¬ LargerEntry vm.mem root va len perm)
    (small : (vmMapPhys root va len pa perm vm).2.pool.numPages ≤ maxPages)
    (returns : (vmMapPhys root va len pa perm vm).1 = some 0) :
    MapInv vm root va len perm (vmMapPhys root va len pa perm vm).2 ∧
      ∀ offset < 2 ^ 48, InRange va len offset →
        EnteredLeaf va pa perm offset (leafOf (vmMapPhys root va len pa perm vm).2.mem root offset) := by
  have start : MapInv vm root va len perm vm := by
    refine ⟨built, fun _ _ _ => Or.inl rfl, fun offset bound inRange larger => ?_⟩
    by_contra isBig
    have address : (va + (offset - va % 2 ^ 48)) % 2 ^ 48 = offset := by
      have low := inRange.1
      omega
    apply noLarger
    refine ⟨va + (offset - va % 2 ^ 48), by omega, ?_, ?_⟩
    · have high := inRange.2
      omega
    · rw [← leafOf_canonical, address]
      exact ⟨larger, by simpa using isBig⟩
  have rule := mapPhys_rule vm root pa half positive vaAligned lenAligned
  have notNone : mapCreate perm ≠ .none := by
    unfold mapCreate
    split
    · simp
    · split <;> simp
  rw [vmMapPhys_walk] at small returns ⊢
  rcases rule.pageWalk 3 root va (lastVa va len) 0 vm start (Nat.le_trans (mapLevel_le perm) (by decide))
    (subWalk_top vm.mem root va (lastVa va len)) with large | ⟨inv, _, _, entered⟩
  · exact absurd small (Nat.not_le.mpr large)
  · refine ⟨inv, fun offset bound inRange => entered returns offset ⟨notNone, Nat.zero_le _, ?_, ?_⟩⟩
    · rw [Nat.zero_add]
      exact bound
    · have span : entrySpan (3 + 1) = 2 ^ 48 := rfl
      have low := inRange.1
      have high := inRange.2
      rw [Between, span, lastVa_offset half positive, Nat.sub_zero]
      exact ⟨Nat.div_le_div_right low, Nat.div_le_div_right (by omega)⟩

theorem vmMapPhys_entered (built : RootBuilt vm root) (readable : perm.has permR = true)
    (half : OneHalf va len) (positive : 0 < len) (vaAligned : mapSize perm ∣ va)
    (lenAligned : mapSize perm ∣ len) (noLarger : ¬ LargerEntry vm.mem root va len perm)
    (small : (vmMapPhys root va len pa perm vm).2.pool.numPages ≤ maxPages)
    (returns : (vmMapPhys root va len pa perm vm).1 = some 0) :
    MapInv vm root va len perm (vmMapPhys root va len pa perm vm).2 ∧
      ∀ offset < 2 ^ 48, InRange va len offset →
        leafOf (vmMapPhys root va len pa perm vm).2.mem root offset =
          (mapLevel perm, mappedWord va pa perm offset) := by
  obtain ⟨inv, leaves⟩ := vmMapPhys_leaves built half positive vaAligned lenAligned noLarger small returns
  exact ⟨inv, fun offset bound inRange => (leaves offset bound inRange).readable readable bound⟩

end Walk

/-! Translations. -/

section Translation

variable {va len k : Nat} {pa : PhysAddr} {perm : Perm}

/-- The address that a call enters for the page of `va + k`. -/
theorem entered_address (vaAligned : mapSize perm ∣ va) (paAligned : mapSize perm ∣ pa.toNat)
    (reach : pa.toNat + k < 2 ^ 52) (half : OneHalf va (k + 1)) :
    (pteAddr (mappedWord va pa perm ((va + k) % 2 ^ 48))).toNat =
      pa.toNat + k / mapSize perm * mapSize perm := by
  have pos : 0 < mapSize perm := entrySpan_pos _
  have span : entrySpan (3 + 1) = 2 ^ 48 := rfl
  obtain ⟨start, isStart⟩ := mapSize_offset vaAligned
  have offset : (va + k) % 2 ^ 48 = va % 2 ^ 48 + k := by
    rcases half with lower | ⟨upper, _⟩ <;> omega
  have floor : (va + k) % 2 ^ 48 / mapSize perm * mapSize perm =
      va % 2 ^ 48 + k / mapSize perm * mapSize perm := by
    rw [offset, isStart, Nat.mul_add_div pos, Nat.add_mul, Nat.mul_comm start]
  have page : blockStart 3 va + (va + k) % 2 ^ 48 / mapSize perm * mapSize perm =
      va + k / mapSize perm * mapSize perm := by
    rw [floor, blockStart, span]
    omega
  have below := Nat.div_mul_le_self k (mapSize perm)
  have small : 4096 ∣ pa.toNat + k / mapSize perm * mapSize perm := by
    have least : 4096 ∣ mapSize perm := entrySpan_dvd (Nat.zero_le _)
    exact Nat.dvd_add (Nat.dvd_trans least paAligned) (Nat.dvd_mul_left_of_dvd least _)
  have value : (BitVec.ofNat 64 (va + k / mapSize perm * mapSize perm) - BitVec.ofNat 64 va + pa).toNat =
      pa.toNat + k / mapSize perm * mapSize perm := by
    simp only [BitVec.toNat_add, BitVec.toNat_sub, BitVec.toNat_ofNat]
    rcases half with lower | ⟨upper, _⟩ <;> omega
  rw [mappedWord, pteAddr_or _ _ (pteAddr_getPtePerm perm), page, pteAddr_toNat, value]
  omega

theorem mapped_pa (vaAligned : mapSize perm ∣ va) (paAligned : mapSize perm ∣ pa.toNat)
    (reach : pa.toNat + k < 2 ^ 52) (half : OneHalf va (k + 1)) :
    (leafTranslation [] (mappedWord va pa perm ((va + k) % 2 ^ 48)) (pgshift + 9 * mapLevel perm) (va + k)).pa =
      pa + BitVec.ofNat 64 k := by
  have address := entered_address vaAligned paAligned reach half
  have size : 2 ^ (pgshift + 9 * mapLevel perm) = mapSize perm := by rw [mapSize, entrySpan]
  have pos : 0 < mapSize perm := entrySpan_pos _
  have rest : (va + k) % mapSize perm = k % mapSize perm := by
    obtain ⟨start, rfl⟩ := vaAligned
    rw [Nat.mul_add_mod]
  have split := Nat.div_add_mod' k (mapSize perm)
  have whole : (pa.toNat + k / mapSize perm * mapSize perm) / mapSize perm * mapSize perm =
      pa.toNat + k / mapSize perm * mapSize perm :=
    Nat.div_mul_cancel (Nat.dvd_add paAligned (Nat.dvd_mul_left _ _))
  have aligned : pteAddr (mappedWord va pa perm ((va + k) % 2 ^ 48)) >>> (pgshift + 9 * mapLevel perm) <<<
      (pgshift + 9 * mapLevel perm) = pteAddr (mappedWord va pa perm ((va + k) % 2 ^ 48)) := by
    apply BitVec.eq_of_toNat_eq
    rw [BitVec.toNat_shiftLeft, BitVec.toNat_ushiftRight, Nat.shiftRight_eq_div_pow, Nat.shiftLeft_eq, size,
      address, whole, Nat.mod_eq_of_lt (by omega)]
  apply BitVec.eq_of_toNat_eq
  rw [leafTranslation, aligned, BitVec.toNat_add, BitVec.toNat_add, address, BitVec.toNat_ofNat,
    BitVec.toNat_ofNat, size, rest]
  omega

theorem mapped_rights (va offset : Nat) (pa : PhysAddr) (perm : Perm) (shift at_ : Nat) :
    (leafTranslation [] (mappedWord va pa perm offset) shift at_).writable = perm.has permW ∧
      (leafTranslation [] (mappedWord va pa perm offset) shift at_).user = perm.has permU ∧
      (leafTranslation [] (mappedWord va pa perm offset) shift at_).noExecute = !perm.has permX := by
  simp only [leafTranslation, List.all_cons, List.all_nil, List.any_cons, List.any_nil, Bool.and_true,
    Bool.or_false, Ptent.has, mappedWord]
  rw [entered_flag _ _ (by decide), entered_flag _ _ (by decide), entered_flag _ _ (by decide),
    getPtePerm_w, getPtePerm_u, getPtePerm_nx]
  refine ⟨?_, ?_, ?_⟩
  · cases perm.has permW <;> decide
  · cases perm.has permU <;> decide
  · cases perm.has permX <;> decide

end Translation

/-- A call that returns 0 maps its range and nothing else. -/
theorem map_phys_maps_exactly {va len : Nat} {pa : PhysAddr} {perm : Perm} (built : RootBuilt vm root)
    (readable : perm.has permR = true) (vaAligned : mapSize perm ∣ va) (paAligned : mapSize perm ∣ pa.toNat)
    (lenAligned : mapSize perm ∣ len) (positive : 0 < len) (half : OneHalf va len)
    (reach : pa.toNat + len ≤ 2 ^ 52) (noLarger : ¬ LargerEntry vm.mem root va len perm)
    (small : (vmMapPhys root va len pa perm vm).2.pool.numPages ≤ maxPages)
    (returns : (vmMapPhys root va len pa perm vm).1 = some 0) :
    MapsExactly root va len pa perm vm (vmMapPhys root va len pa perm vm).2 := by
  obtain ⟨inv, entered⟩ := vmMapPhys_entered built readable half positive vaAligned lenAligned noLarger
    small returns
  constructor
  · intro k inLen
    have partHalf : OneHalf va (k + 1) := by
      rcases half with lower | ⟨upper, noWrap⟩
      · exact Or.inl (by omega)
      · exact Or.inr ⟨upper, by omega⟩
    have inRange : InRange va len ((va + k) % 2 ^ 48) := by
      rcases half with lower | ⟨upper, _⟩ <;> exact ⟨by omega, by omega⟩
    have leaf := entered ((va + k) % 2 ^ 48) (Nat.mod_lt _ (by decide)) inRange
    rw [leafOf_canonical] at leaf
    have present : ptePresent (mappedWord va pa perm ((va + k) % 2 ^ 48)) = true := entered_present _ readable
    refine ⟨_, ?_, mapped_pa vaAligned paAligned (by omega) partHalf, mapped_rights _ _ _ _ _ _⟩
    rw [translate_leaf inv.grounded.forest, leaf, leafTranslates, if_pos present]
  · intro other canonical out
    have outRange : ¬ InRange va len (other % 2 ^ 48) := by
      rintro ⟨low, high⟩
      apply out
      rcases half with lower | ⟨upper, noWrap⟩ <;> rcases canonical with below | ⟨above, top⟩ <;>
        exact ⟨by omega, by omega⟩
    have same := inv.outside (other % 2 ^ 48) (Nat.mod_lt _ (by decide)) outRange
    rw [leafOf_canonical, leafOf_canonical] at same
    rw [translate_leaf inv.grounded.forest, translate_leaf built.forest, same.translates]

theorem blankVm_built : RootBuilt blankVm 0x1000#64 :=
  (blank_grounded (pageInit_spec blankVm_pool).1 (by decide)).weaken fun _ _ => Or.inl

theorem blankVm_leaf (va : Nat) : leafOf blankVm.mem 0x1000#64 va = (3, 0) := by
  have word : blankVm.mem 0x1000#64 (pdx (2 + 1) va) = 0#64 := rfl
  simp only [leafOf, leafAt, word, tableOf_zero]
  rfl

theorem blankVm_noLarger (va len : Nat) (perm : Perm) : ¬ LargerEntry blankVm.mem 0x1000#64 va len perm := by
  rintro ⟨at_, _, _, _, big⟩
  rw [blankVm_leaf] at big
  exact absurd big (by decide)

theorem map_phys_maps_exactly_big :
    (vmMapPhys 0x1000#64 0x200000000 0x200000 pageBase (permR ||| permW ||| permBig) blankVm).1 = some 0 ∧
      MapsExactly 0x1000#64 0x200000000 0x200000 pageBase (permR ||| permW ||| permBig) blankVm bigVm := by
  have returns : (vmMapPhys 0x1000#64 0x200000000 0x200000 pageBase (permR ||| permW ||| permBig)
      blankVm).1 = some 0 := by decide +kernel
  refine ⟨returns, ?_⟩
  exact map_phys_maps_exactly blankVm_built (by decide) (by decide) (by decide) (by decide) (by decide)
    (Or.inl (by decide)) (by decide) (blankVm_noLarger _ _ _) (by decide +kernel) returns

/-- An entry holds 52 bits of an address. -/
theorem map_phys_drops_high_bits :
    RootBuilt blankVm 0x1000#64 ∧ ¬ LargerEntry blankVm.mem 0x1000#64 0 4096 permR ∧
      (vmMapPhys 0x1000#64 0 4096 (BitVec.ofNat 64 (2 ^ 52)) permR blankVm).1 = some 0 ∧
      ¬ MapsExactly 0x1000#64 0 4096 (BitVec.ofNat 64 (2 ^ 52)) permR blankVm
        (vmMapPhys 0x1000#64 0 4096 (BitVec.ofNat 64 (2 ^ 52)) permR blankVm).2 := by
  refine ⟨blankVm_built, blankVm_noLarger _ _ _, by decide +kernel, fun exactly => ?_⟩
  obtain ⟨found, translates, address, _⟩ := exactly.inside 0 (by decide)
  have differs : (translate (vmMapPhys 0x1000#64 0 4096 (BitVec.ofNat 64 (2 ^ 52)) permR blankVm).2.mem
      0x1000#64 0).map Translation.pa = some 0 := by decide +kernel
  rw [translates, Option.map_some, address] at differs
  exact absurd differs (by decide)

end RdmaPaging
