import RdmaPaging.VmVisits

/-!
`dune_vm_mprotect` over roots with entries of every size. A call rewrites the entries that its
walk visits and keeps them visited, so a second call goes over the same entries.
-/

namespace RdmaPaging

open RadixTree

variable {mem : PhysAddr → Nat → Ptent} {root : PhysAddr} {vm : Vm}

/-- `dune_vm_mprotect` does not refuse the permissions. -/
def Perm.accepted (perm : Perm) : Prop := ¬ (perm.has permR = false ∧ perm.has permW = true)

/-- The permissions that a call enters: none without `PERM_R`. -/
def Perm.allowed (perm : Perm) : Perm := if perm.has permR then perm else 0

/-- The permissions set the page size bit. -/
def Perm.sized (perm : Perm) : Bool := perm.has permBig || perm.has permBig1gb

/-- What a call makes of a word. -/
def protectedWord (perm : Perm) (pte : Ptent) : Ptent :=
  pteAddr pte ||| (pteFlags pte &&& ptePs) ||| getPtePerm perm.allowed

/-! Words. -/

theorem orIf_and (condition : Bool) (flag pte mask : Ptent) :
    orIf condition flag pte &&& mask = orIf condition (flag &&& mask) (pte &&& mask) := by
  unfold orIf
  split
  · exact BitVec.and_or_distrib_right
  · rfl

theorem orIf_and_apart {flag mask : Ptent} (condition : Bool) (pte : Ptent) (apart : flag &&& mask = 0) :
    orIf condition flag pte &&& mask = pte &&& mask := by
  rw [orIf_and, apart]
  simp [orIf]

theorem getPtePerm_ps (perm : Perm) :
    getPtePerm perm &&& ptePs = if perm.sized then ptePs else 0 := by
  rw [getPtePerm, orIf_and]
  iterate 9 rw [orIf_and_apart _ _ (by decide)]
  simp [orIf, Perm.sized]

theorem getPtePerm_p (perm : Perm) : getPtePerm perm &&& pteP = if perm.has permR then pteP else 0 := by
  rw [getPtePerm]
  iterate 9 rw [orIf_and_apart _ _ (by decide)]
  unfold orIf
  split <;> decide

theorem allowed_ne_zero (perm : Perm) : getPtePerm perm.allowed ≠ 0 := by
  unfold Perm.allowed
  split
  · rename_i readable
    have present := getPtePerm_p perm
    rw [if_pos readable] at present
    intro isZero
    rw [isZero] at present
    exact absurd present (by decide)
  · decide

theorem allowed_sized (perm : Perm) :
    perm.allowed.sized = (perm.has permR && perm.sized) := by
  unfold Perm.allowed
  split
  · rename_i readable
    simp [readable]
  · rename_i unreadable
    simp only [Bool.not_eq_true] at unreadable
    rw [unreadable, Bool.false_and]
    decide

theorem flags_ps (pte : Ptent) : pteFlags pte &&& ptePs = pte &&& ptePs := by
  rw [pteFlags, BitVec.and_assoc]
  rfl

theorem pteBig_iff (pte : Ptent) : pteBig pte = true ↔ pte &&& ptePs ≠ 0 := by
  simp [pteBig, flags_ps]

/-- No permission reaches into the address of an entry. -/
theorem pteAddr_protectedWord (perm : Perm) (pte : Ptent) :
    pteAddr (protectedWord perm pte) = pteAddr pte := by
  have size : pteAddr (pteFlags pte &&& ptePs) = 0 := by
    rw [pteAddr, BitVec.and_assoc]
    have apart : ptePs &&& 0xffffffffff000#64 = 0 := by decide
    rw [apart]
    exact BitVec.and_zero
  have outside : pteAddr ((pteFlags pte &&& ptePs) ||| getPtePerm perm.allowed) = 0 := by
    have perms := pteAddr_getPtePerm perm.allowed
    simp only [pteAddr] at size perms ⊢
    rw [BitVec.and_or_distrib_right, size, perms]
    rfl
  rw [protectedWord, BitVec.or_assoc]
  exact pteAddr_or pte _ outside

theorem address_ps (pte : Ptent) : pteAddr pte &&& ptePs = 0 := by
  have apart : 0xffffffffff000#64 &&& ptePs = 0 := by decide
  rw [pteAddr, BitVec.and_assoc, apart]
  exact BitVec.and_zero

theorem ps_cases (pte : Ptent) : pte &&& ptePs = if pteBig pte then ptePs else 0 := by
  have bit : ptePs = BitVec.twoPow 64 7 := by decide
  by_cases big : pteBig pte = true
  · have nonzero := (pteBig_iff pte).mp big
    rw [if_pos big]
    rw [bit, BitVec.and_twoPow] at nonzero ⊢
    split at nonzero
    · rename_i set
      rw [if_pos set]
    · exact absurd rfl nonzero
  · rw [if_neg big]
    rw [pteBig_iff, not_not] at big
    exact big

theorem protectedWord_eq (perm : Perm) (pte : Ptent) : protectedWord perm pte =
    pteAddr pte ||| (if pteBig pte then ptePs else 0) ||| getPtePerm perm.allowed := by
  rw [protectedWord, flags_ps, ps_cases]

theorem pteBig_protectedWord (perm : Perm) (pte : Ptent) :
    pteBig (protectedWord perm pte) = (pteBig pte || perm.allowed.sized) := by
  have masked : protectedWord perm pte &&& ptePs =
      if pteBig pte || perm.allowed.sized then ptePs else 0 := by
    rw [protectedWord_eq, BitVec.and_or_distrib_right, BitVec.and_or_distrib_right, address_ps,
      getPtePerm_ps]
    cases pteBig pte <;> cases perm.allowed.sized <;> decide
  rw [Bool.eq_iff_iff, pteBig_iff, masked]
  cases pteBig pte || perm.allowed.sized <;> decide

theorem protectedWord_ne_zero (perm : Perm) (pte : Ptent) : protectedWord perm pte ≠ 0 := by
  rw [protectedWord]
  intro isZero
  exact allowed_ne_zero perm (BitVec.or_eq_zero_iff.mp isZero).2

/-- A second call undoes the first, unless the first sets the page size bit of an entry that
lacks it and does not get it from the second. -/
theorem protectedWord_twice_iff (p1 p2 : Perm) (pte : Ptent) :
    protectedWord p2 (protectedWord p1 pte) = protectedWord p2 pte ↔
      ¬ (p1.allowed.sized = true ∧ p2.allowed.sized = false ∧ pteBig pte = false) := by
  have sized := getPtePerm_ps p2.allowed
  rw [protectedWord_eq p2 (protectedWord p1 pte), protectedWord_eq p2 pte, pteAddr_protectedWord,
    pteBig_protectedWord]
  by_cases first : p1.allowed.sized = true
  · by_cases big : pteBig pte = true
    · simp [big]
    · simp only [Bool.not_eq_true] at big
      by_cases second : p2.allowed.sized = true
      · have absorbed : ptePs ||| getPtePerm p2.allowed = getPtePerm p2.allowed := by
          rw [if_pos second] at sized
          nth_rewrite 1 [← sized]
          ext bit
          simp only [BitVec.getElem_or, BitVec.getElem_and]
          cases (getPtePerm p2.allowed)[bit] <;> simp
        simp [first, big, second, BitVec.or_assoc, absorbed]
      · simp only [Bool.not_eq_true] at second
        simp only [first, big, second, and_self, not_true_eq_false, iff_false]
        intro same
        have masked := congrArg (· &&& ptePs) same
        simp only [BitVec.and_or_distrib_right, address_ps, sized, second] at masked
        exact absurd masked (by decide)
  · simp only [Bool.not_eq_true] at first
    simp [first]

/-! One call. -/

deriving instance DecidableEq for PteRef

/-- The entries that a call rewrites. -/
def protectedSlots (mem : PhysAddr → Nat → Ptent) (root : PhysAddr) (va len : Nat) : List PteRef :=
  (visits mem 3 root va (lastVa va len)).map Prod.fst

def protectedMem (root : PhysAddr) (va len : Nat) (perm : Perm) (mem : PhysAddr → Nat → Ptent) :
    PhysAddr → Nat → Ptent := fun dir index =>
  if ⟨dir, index⟩ ∈ protectedSlots mem root va len then protectedWord perm (mem dir index)
  else mem dir index

theorem mprotectHelper_stores (perm : Perm) :
    StoresWord Vm.mem (mprotectHelper (getPtePerm perm.allowed)) fun _ => protectedWord perm := by
  intro slot va vm
  exact ⟨rfl, rfl⟩

theorem vmMprotect_refused {perm : Perm} (refused : ¬ perm.accepted) (va len : Nat) :
    vmMprotect root va len perm vm = (some (-einval), vm) := by
  rw [Perm.accepted, not_not] at refused
  rw [vmMprotect, if_pos ⟨by simp [refused.1], refused.2⟩]

/-- An accepted call rewrites the entries of its walk and nothing else. -/
theorem vmMprotect_accepted {perm : Perm} (accepted : perm.accepted)
    (distinct : Distinct vm.mem 3 root) (va len : Nat) :
    vmMprotect root va len perm vm =
      (some 0, { vm with mem := protectedMem root va len perm vm.mem }) := by
  have stores := mprotectHelper_stores perm
  have walked : vmMprotect root va len perm vm = visitAll (mprotectHelper (getPtePerm perm.allowed))
      (visits vm.mem 3 root va (lastVa va len)) vm := by
    rw [vmMprotect, if_neg, pageWalk_eq]
    · exact pageWalkOf_visits stores.own (by decide) vm distinct
    · rintro ⟨unreadable, writable⟩
      exact accepted ⟨by simpa using unreadable, writable⟩
  obtain ⟨returns, words⟩ := stores.visitAll _ (visits_nodup (by decide) distinct va (lastVa va len)) vm
  have pool : (visitAll (mprotectHelper (getPtePerm perm.allowed))
      (visits vm.mem 3 root va (lastVa va len)) vm).2.pool = vm.pool := by
    refine visitAll_keeps (fun next => next.pool = vm.pool) ?_ _ vm rfl
    exact fun _ _ _ same => same
  have mem : (visitAll (mprotectHelper (getPtePerm perm.allowed))
      (visits vm.mem 3 root va (lastVa va len)) vm).2.mem = protectedMem root va len perm vm.mem := by
    funext dir index
    rw [protectedMem]
    split
    · rename_i member
      obtain ⟨visit, inList, slot⟩ := List.mem_map.mp member
      have stored := words visit inList
      rw [slot] at stored
      exact stored
    · rename_i unvisited
      apply visitAll_frame stores.own
      rintro ⟨slot, va⟩ inList ⟨rfl, rfl⟩
      exact unvisited (List.mem_map_of_mem inList)
  rw [walked]
  refine Prod.ext returns ?_
  rw [← pool, ← mem]

theorem lastVa_eq {va len : Nat} (positive : 0 < len) (noWrap : va + len ≤ 2 ^ 64) :
    lastVa va len = va + len - 1 := by
  simp only [lastVa, BitVec.toNat_sub, BitVec.toNat_add, BitVec.toNat_ofNat]
  omega

section Slots

variable {va len : Nat} {slot : PteRef}

theorem mem_protectedSlots : slot ∈ protectedSlots mem root va len ↔
    ∃ at_ low offset, VisitAt mem 3 root va (lastVa va len) slot at_ low offset := by
  simp only [protectedSlots, List.mem_map, Prod.exists, mem_visits_iff (Nat.le_refl 3)]
  constructor
  · rintro ⟨_, at_, ⟨low, offset, visit⟩, rfl⟩
    exact ⟨at_, low, offset, visit⟩
  · rintro ⟨at_, low, offset, visit⟩
    exact ⟨slot, at_, ⟨low, offset, visit⟩, rfl⟩

/-- A word that is rewritten is one that a walk visits, at the level of its table. -/
theorem protectedSlots_word (distinct : Distinct mem 3 root) {low index : Nat} {dir : PhysAddr}
    (member : ⟨dir, index⟩ ∈ protectedSlots mem root va len)
    (table : Within nptentries tableOf mem 3 root low dir) : visitedWord low (mem dir index) = true := by
  obtain ⟨_, lower, offset, visit⟩ := mem_protectedSlots.mp member
  have again := tableAt_within (fun step => pdx_bound step offset) visit.table
  have same := table.low_unique again (distinct dir)
  rw [same]
  exact visit.word

theorem visitedWord_protected {low : Nat} {pte : Ptent} (perm : Perm)
    (visited : visitedWord low pte = true) : visitedWord low (protectedWord perm pte) = true := by
  cases low with
  | zero => simpa [visitedWord] using protectedWord_ne_zero perm pte
  | succ low =>
      simp only [visitedWord, Nat.add_one_ne_zero, if_false, bigSlot, reduceCtorEq, decide_false,
        Bool.false_or, pteBig_protectedWord] at visited ⊢
      cases big : pteBig pte <;> simp_all

theorem tableOf_visited {low : Nat} {pte : Ptent} (visited : visitedWord (low + 1) pte = true) :
    tableOf low pte = none := by
  have big : bigSlot (low + 1) .none pte = true := by simpa [visitedWord] using visited
  rw [tableOf, if_pos big]

theorem visitedWord_protectedMem (distinct : Distinct mem 3 root) (perm : Perm) (low : Nat)
    (dir : PhysAddr) (table : Within nptentries tableOf mem 3 root low dir) (index : Nat) :
    visitedWord low (protectedMem root va len perm mem dir index) = visitedWord low (mem dir index) := by
  rw [protectedMem]
  split
  · rename_i member
    have visited := protectedSlots_word distinct member table
    rw [visited, visitedWord_protected perm visited]
  · rfl

theorem tableOf_protectedMem (distinct : Distinct mem 3 root) (perm : Perm) (low : Nat)
    (dir : PhysAddr) (table : Within nptentries tableOf mem 3 root (low + 1) dir) (index : Nat) :
    tableOf low (protectedMem root va len perm mem dir index) = tableOf low (mem dir index) := by
  rw [protectedMem]
  split
  · rename_i member
    have visited := protectedSlots_word distinct member table
    rw [tableOf_visited visited, tableOf_visited (visitedWord_protected perm visited)]
  · rfl

/-- A call leaves the entries that a walk visits and the tables as they are. -/
theorem protectedSlots_protectedMem (distinct : Distinct mem 3 root) (perm : Perm) :
    protectedSlots (protectedMem root va len perm mem) root va len = protectedSlots mem root va len := by
  rw [protectedSlots, protectedSlots]
  congr 1
  apply visits_same
  · exact fun low dir table index _ => visitedWord_protectedMem distinct perm low dir table index
  · exact fun low dir table index _ => tableOf_protectedMem distinct perm low dir table index

theorem protectedMem_distinct (distinct : Distinct mem 3 root) (perm : Perm) :
    Distinct (protectedMem root va len perm mem) 3 root :=
  distinct.same_pointers fun low dir table index _ =>
    tableOf_protectedMem distinct perm low dir table index

/-- Two calls over one range. -/
theorem protectedMem_twice (distinct : Distinct mem 3 root) (p1 p2 : Perm) (dir : PhysAddr) (index : Nat) :
    protectedMem root va len p2 (protectedMem root va len p1 mem) dir index =
      if ⟨dir, index⟩ ∈ protectedSlots mem root va len then
        protectedWord p2 (protectedWord p1 (mem dir index))
      else mem dir index := by
  rw [protectedMem, protectedSlots_protectedMem distinct, protectedMem]
  split <;> rfl

end Slots

/-! The results. -/

/-- A 4 KB entry that a call over the range visits and that has no page size bit. -/
def SmallEntry (mem : PhysAddr → Nat → Ptent) (root : PhysAddr) (va len : Nat) : Prop :=
  ∃ offset dir, offset < 2 ^ 48 ∧ va % 2 ^ 48 / 4096 ≤ offset / 4096 ∧
    offset / 4096 ≤ (va + len - 1) % 2 ^ 48 / 4096 ∧ leafTable mem root offset = some dir ∧
    mem dir (pdx 0 offset) ≠ 0 ∧ pteBig (mem dir (pdx 0 offset)) = false

/-- The entry at which an address of the range arrives at some level. The walk of the processor
does not look at the bits from 48 on. -/
def MeetsRange (mem : PhysAddr → Nat → Ptent) (root : PhysAddr) (va len : Nat) (slot : PteRef) : Prop :=
  ∃ low at_, va ≤ at_ ∧ at_ < va + len ∧
    tableAt tableOf mem (fun step => pdx step at_) low 3 root = some slot.dir ∧ slot.index = pdx low at_

/-- What is claimed of two calls over a range. -/
structure MprotectMeets (root : PhysAddr) (va len : Nat) (p1 p2 : Perm) (vm : Vm) : Prop where
  lastWins : (vmMprotect root va len p2 (vmMprotect root va len p1 vm).2).2 =
    (vmMprotect root va len p2 vm).2
  keepsAddress : ∀ perm dir index, pteAddr ((vmMprotect root va len perm vm).2.mem dir index) =
    pteAddr (vm.mem dir index)
  keepsSize : ∀ perm low dir index, (treeOf root).Table vm.mem low dir →
    bigSlot low .none ((vmMprotect root va len perm vm).2.mem dir index) =
      bigSlot low .none (vm.mem dir index)
  others : ∀ perm dir index, ¬ MeetsRange vm.mem root va len ⟨dir, index⟩ →
    (vmMprotect root va len perm vm).2.mem dir index = vm.mem dir index
  refuses : ∀ perm, ((vmMprotect root va len perm vm).1 = some (-einval) ↔
    perm.has permW = true ∧ perm.has permR = false) ∧
    ((vmMprotect root va len perm vm).1 = some (-einval) → (vmMprotect root va len perm vm).2 = vm)

theorem RootBuilt.distinct (built : RootBuilt vm root) : Distinct vm.mem 3 root := by
  intro page
  have counted : occurrences nptentries tableOf vm.mem page (treeOf root).level (treeOf root).root ≤
      copies vm.mem [treeOf root] page := occurrences_le_copies (by simp)
  exact Nat.le_trans counted (built.forest.distinct page)

theorem tableAt_zero (route : Nat → Nat) (level : Nat) (dir : PhysAddr) :
    tableAt tableOf mem route 0 level dir = reach tableOf mem route level dir := by
  induction level generalizing dir with
  | zero => rfl
  | succ level ih =>
      rw [tableAt, reach, if_neg (by omega)]
      split <;> simp_all

/-- The index of an address from a level on depends on the number of its entry at that level. -/
theorem pdx_number {low step x y : Nat} (above : low ≤ step) (bound : step ≤ 3)
    (same : x % 2 ^ 48 / entrySpan low = y % 2 ^ 48 / entrySpan low) : pdx step x = pdx step y := by
  obtain ⟨width, span⟩ := entrySpan_dvd above
  rw [← pdx_canonical bound, ← pdx_canonical bound y, pdx_eq, pdx_eq, span, ← Nat.div_div_eq_div_mul,
    ← Nat.div_div_eq_div_mul, same]

/-- An entry that a call over a range visits is one for an address of the range. -/
theorem VisitAt.meetsRange {va len at_ low offset : Nat} {slot : PteRef} (positive : 0 < len)
    (noWrap : va + len ≤ 2 ^ 64) (visit : VisitAt mem 3 root va (lastVa va len) slot at_ low offset) :
    MeetsRange mem root va len slot := by
  have lowBound := tableAt_le visit.table
  have span : entrySpan (3 + 1) = 2 ^ 48 := rfl
  have inside := visit.inside
  have first := visit.first
  have last := visit.last
  rw [lastVa_eq positive noWrap] at last
  rw [span] at inside first last
  have number : offset % 2 ^ 48 / entrySpan low = offset / entrySpan low := by
    rw [Nat.mod_eq_of_lt inside]
  -- the first address of the range if it has the entry, else the first address of the entry
  obtain ⟨address, low_, high, same⟩ : ∃ address, va ≤ address ∧ address < va + len ∧
      address % 2 ^ 48 / entrySpan low = offset / entrySpan low := by
    by_cases start : va % 2 ^ 48 / entrySpan low = offset / entrySpan low
    · exact ⟨va, Nat.le_refl _, by omega, start⟩
    · have floor := Nat.div_mul_le_self offset (entrySpan low)
      have lastFloor := Nat.div_mul_le_self ((va + len - 1) % 2 ^ 48) (entrySpan low)
      have lastBound := Nat.mul_le_mul_right (entrySpan low) last
      have pos := entrySpan_pos low
      have later : va % 2 ^ 48 < offset / entrySpan low * entrySpan low := by
        rw [← Nat.div_lt_iff_lt_mul pos]
        omega
      refine ⟨va / 2 ^ 48 * 2 ^ 48 + offset / entrySpan low * entrySpan low, by omega, by omega, ?_⟩
      rw [Nat.mul_comm, Nat.mul_add_mod, Nat.mod_eq_of_lt (by omega), Nat.mul_div_cancel _ pos]
  have route : ∀ step, low ≤ step → step ≤ 3 → pdx step address = pdx step offset :=
    fun step above bound => pdx_number above bound (same.trans number.symm)
  refine ⟨low, address, low_, high, ?_, ?_⟩
  · rw [← visit.table]
    exact tableAt_route lowBound fun step above bound => route step (by omega) bound
  · rw [visit.index, route low (Nat.le_refl _) lowBound]

theorem smallEntry_iff {va len : Nat} (positive : 0 < len) (noWrap : va + len ≤ 2 ^ 64) :
    SmallEntry mem root va len ↔
      ∃ dir index, ⟨dir, index⟩ ∈ protectedSlots mem root va len ∧ pteBig (mem dir index) = false := by
  constructor
  · rintro ⟨offset, dir, inside, first, last, leads, nonzero, small⟩
    refine ⟨dir, pdx 0 offset, mem_protectedSlots.mpr
      ⟨blockStart 3 va + offset / entrySpan 0 * entrySpan 0, 0, offset, ?_⟩, small⟩
    refine ⟨inside, ?_, rfl, by simpa [visitedWord] using nonzero, first, ?_, rfl⟩
    · rw [tableAt_zero]
      exact leads
    · rw [lastVa_eq positive noWrap]
      exact last
  · rintro ⟨dir, index, member, small⟩
    obtain ⟨at_, low, offset, visit⟩ := mem_protectedSlots.mp member
    obtain rfl : low = 0 := by
      by_contra upper
      have word := visit.word
      simp [visitedWord, upper, bigSlot, small] at word
    have last := visit.last
    have leads := visit.table
    have nonzero := visit.word
    rw [lastVa_eq positive noWrap] at last
    rw [tableAt_zero] at leads
    rw [visit.index] at nonzero
    have isIndex : index = pdx 0 offset := visit.index
    subst isIndex
    exact ⟨offset, dir, visit.inside, visit.first, last, leads, by simpa [visitedWord] using nonzero, small⟩

section Range

variable {va len : Nat} (built : RootBuilt vm root)

include built

theorem vmMprotect_mem (perm : Perm) : (vmMprotect root va len perm vm).2.mem =
    if perm.has permR = false ∧ perm.has permW = true then vm.mem
    else protectedMem root va len perm vm.mem := by
  split
  · rename_i refused
    rw [vmMprotect_refused (by simpa [Perm.accepted] using refused)]
  · rename_i accepted
    rw [vmMprotect_accepted accepted built.distinct]

theorem lastWins_iff {p1 p2 : Perm} (first : p1.accepted) (second : p2.accepted)
    (positive : 0 < len) (noWrap : va + len ≤ 2 ^ 64) :
    (vmMprotect root va len p2 (vmMprotect root va len p1 vm).2).2 = (vmMprotect root va len p2 vm).2 ↔
      ¬ (p1.allowed.sized = true ∧ p2.allowed.sized = false ∧ SmallEntry vm.mem root va len) := by
  have distinct := built.distinct
  have sameMem : (vmMprotect root va len p2 (vmMprotect root va len p1 vm).2).2 =
        (vmMprotect root va len p2 vm).2 ↔
      protectedMem root va len p2 (protectedMem root va len p1 vm.mem) =
        protectedMem root va len p2 vm.mem := by
    have once : Distinct ({ vm with mem := protectedMem root va len p1 vm.mem } : Vm).mem 3 root :=
      protectedMem_distinct distinct p1
    rw [vmMprotect_accepted first distinct, vmMprotect_accepted second distinct,
      vmMprotect_accepted second once, Vm.mk.injEq]
    exact ⟨And.right, fun same => ⟨rfl, same⟩⟩
  rw [sameMem, smallEntry_iff positive noWrap]
  constructor
  · rintro same ⟨sized, unsized, dir, index, member, small⟩
    have word := congrFun (congrFun same dir) index
    rw [protectedMem_twice distinct, protectedMem, if_pos member, if_pos member,
      protectedWord_twice_iff] at word
    exact word ⟨sized, unsized, small⟩
  · intro noLeak
    funext dir index
    rw [protectedMem_twice distinct, protectedMem]
    split
    · rename_i member
      rw [protectedWord_twice_iff]
      rintro ⟨sized, unsized, small⟩
      exact noLeak ⟨sized, unsized, dir, index, member, small⟩
    · rfl

theorem vmMprotect_address (perm : Perm) (dir : PhysAddr) (index : Nat) :
    pteAddr ((vmMprotect root va len perm vm).2.mem dir index) = pteAddr (vm.mem dir index) := by
  rw [vmMprotect_mem built]
  split
  · rfl
  · rw [protectedMem]
    split
    · exact pteAddr_protectedWord perm _
    · rfl

theorem vmMprotect_size (perm : Perm) (low : Nat) (dir : PhysAddr) (index : Nat)
    (table : (treeOf root).Table vm.mem low dir) :
    bigSlot low .none ((vmMprotect root va len perm vm).2.mem dir index) =
      bigSlot low .none (vm.mem dir index) := by
  rw [vmMprotect_mem built]
  split
  · rfl
  · cases low with
    | zero => rfl
    | succ low => exact visitedWord_protectedMem built.distinct perm (low + 1) dir table index

theorem vmMprotect_others (positive : 0 < len) (noWrap : va + len ≤ 2 ^ 64) (perm : Perm)
    (dir : PhysAddr) (index : Nat) (outside : ¬ MeetsRange vm.mem root va len ⟨dir, index⟩) :
    (vmMprotect root va len perm vm).2.mem dir index = vm.mem dir index := by
  rw [vmMprotect_mem built]
  split
  · rfl
  · rw [protectedMem, if_neg]
    intro member
    obtain ⟨_, _, _, visit⟩ := mem_protectedSlots.mp member
    exact outside (visit.meetsRange positive noWrap)

theorem vmMprotect_refuses (perm : Perm) :
    ((vmMprotect root va len perm vm).1 = some (-einval) ↔
      perm.has permW = true ∧ perm.has permR = false) ∧
    ((vmMprotect root va len perm vm).1 = some (-einval) → (vmMprotect root va len perm vm).2 = vm) := by
  by_cases refused : perm.has permR = false ∧ perm.has permW = true
  · rw [vmMprotect_refused (by simpa [Perm.accepted] using refused)]
    simp [refused]
  · rw [vmMprotect_accepted refused built.distinct]
    have notRefused : ¬ (perm.has permW = true ∧ perm.has permR = false) := fun both => refused both.symm
    have differs : (some 0 : Option Int) ≠ some (-einval) := by decide
    exact ⟨⟨fun same => absurd same differs, fun both => absurd both notRefused⟩,
      fun same => absurd same differs⟩

/-- The last of two calls wins exactly when the first does not set the page size bit of a 4 KB
entry that the second does not set. The rest holds for every call. -/
theorem mprotect_meets_iff {p1 p2 : Perm} (first : p1.accepted) (second : p2.accepted)
    (positive : 0 < len) (noWrap : va + len ≤ 2 ^ 64) :
    MprotectMeets root va len p1 p2 vm ↔
      ¬ ((p1.has permR = true ∧ p1.sized = true) ∧ ¬ (p2.has permR = true ∧ p2.sized = true) ∧
        SmallEntry vm.mem root va len) := by
  have wins := lastWins_iff built first second positive noWrap
  rw [allowed_sized, allowed_sized, Bool.and_eq_true, Bool.eq_false_iff, Ne, Bool.and_eq_true] at wins
  rw [← wins]
  constructor
  · exact MprotectMeets.lastWins
  · intro lastWins
    exact ⟨lastWins, vmMprotect_address built, vmMprotect_size built,
      vmMprotect_others built positive noWrap, vmMprotect_refuses built⟩

end Range

theorem mappedVm_built : RootBuilt mappedVm 0x1000#64 := mappedVm_grounded.weaken fun _ _ => Or.inl

theorem mprotect_meets_iff_mapped :
    SmallEntry mappedVm.mem 0x1000#64 0 4096 ∧
      MprotectMeets 0x1000#64 0 4096 (permR ||| permW) permR mappedVm := by
  have first : (permR ||| permW).accepted := by
    unfold Perm.accepted
    decide
  have second : permR.accepted := by
    unfold Perm.accepted
    decide
  refine ⟨⟨0, pageToPa 509, by decide, by decide, by decide, by decide +kernel, by decide +kernel,
    by decide +kernel⟩, ?_⟩
  refine (mprotect_meets_iff mappedVm_built first second (by decide) (by decide)).mpr ?_
  rintro ⟨⟨_, sized⟩, _⟩
  exact absurd sized (by decide)

/-- `PERM_BIG` sets bit 7 of a 4 KB entry, and the next call keeps it. -/
theorem mprotect_size_bit_stays :
    RootBuilt mappedVm 0x1000#64 ∧ (permR ||| permBig).accepted ∧ permR.accepted ∧
      ¬ MprotectMeets 0x1000#64 0 4096 (permR ||| permBig) permR mappedVm := by
  refine ⟨mappedVm_built, by unfold Perm.accepted; decide, by unfold Perm.accepted; decide, ?_⟩
  intro meets
  have word := congrArg (fun vm => vm.mem (pageToPa 509) 0) meets.lastWins
  revert word
  decide +kernel

end RdmaPaging
