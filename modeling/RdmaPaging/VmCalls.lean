import RdmaPaging.VmAgree
import RdmaPaging.VmMapPhys

/-!
The calls that build a root, with entries of every size: `dune_vm_map_phys`, `dune_vm_map_pages`,
`dune_vm_mprotect` and `dune_vm_unmap`. What they leave is again a tree of distinct pages, none of
which can be allocated, and so lookup and walk go on to agree.
-/

namespace RdmaPaging

open RadixTree

variable {root dir : PhysAddr} {vm : Vm} {va len : Nat} {perm : Perm}

/-- A root and its pool: what is free is not referenced. -/
structure Sound (root : PhysAddr) (vm : Vm) : Prop where
  grounded : Grounded entryBuilt [treeOf root] vm
  freed : ∀ page ∈ vm.pool.free, refOf vm.pool page = 0

/-- The pool has outgrown its table, or a page was put that had no reference. -/
def spoiled (pool : PagePool) : Prop := outgrown maxPages pool ∨ pool.putZero = true

/-- A sound root whose leaves and tables are as said. -/
structure Held (root : PhysAddr) (ok : Nat → Nat × Ptent → Prop) (mine : PhysAddr → Prop) (vm : Vm) : Prop
    extends Sound root vm where
  leaves : ∀ offset < 2 ^ 48, ok offset (leafOf vm.mem root offset)
  tables : ∀ low dir, (treeOf root).Table vm.mem low dir → mine dir

/-- The walk over the range calls its function for a big page. -/
def MeetsBig (mem : PhysAddr → Nat → Ptent) (root : PhysAddr) (va len : Nat) : Prop :=
  ∃ offset < 2 ^ 48, bigSlot (leafOf mem root offset).1 .none (leafOf mem root offset).2 = true ∧
    Between 3 (leafOf mem root offset).1 va (lastVa va len) offset

/-- An entry of the range maps a page that is a table of the root. -/
def MapsTable (mem : PhysAddr → Nat → Ptent) (root : PhysAddr) (va len : Nat) : Prop :=
  ∃ offset < 2 ^ 48, (leafOf mem root offset).2 ≠ 0 ∧
    Between 3 (leafOf mem root offset).1 va (lastVa va len) offset ∧
    ∃ low, (treeOf root).Table mem low (pteAddr (leafOf mem root offset).2)

theorem Sound.failing (sound : Sound root vm) :
    Sound root { vm with pool := { vm.pool with failed := true } } :=
  ⟨⟨sound.grounded.forest, ⟨sound.grounded.list.nodup, sound.grounded.list.inPool⟩, sound.grounded.fresh⟩,
    sound.freed⟩

/-- What is free after an allocation is not referenced. -/
theorem Taken.freed {before after : PagePool} {page : Nat} (taken : Taken before page after)
    (freed : ∀ page ∈ before.free, refOf before page = 0) : ∀ page ∈ after.free, refOf after page = 0 := by
  intro other free
  obtain ⟨different, source⟩ := taken.rest other free
  rw [taken.refs, if_neg different, Nat.add_zero]
  rcases source with listed | outside
  · exact freed other listed
  · rw [refOf, if_neg (by omega)]

theorem pageAlloc_putZero (pool : PagePool) : (pageAlloc pool).2.putZero = pool.putZero := by
  unfold pageAlloc
  split
  · split
    · rename_i grown ran
      obtain ⟨ref, free, taken⟩ := takeFirst_pool grown
      rw [taken]
      unfold growSize at ran
      split at ran
      · rw [← Option.some.inj ran]
      · simp at ran
    · rfl
  · obtain ⟨ref, free, taken⟩ := takeFirst_pool pool
    rw [taken]

theorem allocPage_spoiled (vm : Vm) (already : spoiled vm.pool) : spoiled (allocPage vm).2.pool := by
  rcases already with large | zero
  · exact Or.inl (allocPage_outgrown vm large)
  · right
    rw [allocPage_pool]
    exact (pageAlloc_putZero vm.pool).trans zero

theorem pagePut_spoiled (page : Nat) (pool : PagePool) (already : spoiled pool) :
    spoiled (pagePut page pool).2 := by
  rcases already with large | zero
  · exact Or.inl (pagePut_outgrown page pool large)
  · right
    unfold pagePut
    split
    · simp [zero]
    · exact zero

/-! One store. -/

section Store

variable {ok : Nat → Nat × Ptent → Prop} {mine : PhysAddr → Prop} {low offset : Nat} {pte : Ptent}

/-- An entry that a walk calls its function for is the leaf of its addresses. -/
theorem leafOf_here {mem : PhysAddr → Nat → Ptent} (leads : tableFor mem root low offset = some dir)
    (visited : low = 0 ∨ bigSlot low .none (mem dir (pdx low offset)) = true) :
    leafOf mem root offset = (low, mem dir (pdx low offset)) := by
  rw [leafOf, leafAt_of_tableAt leads]
  cases low with
  | zero => rfl
  | succ lower =>
      have slot := visited.resolve_left (by omega)
      simp only [leafAt, tableOf, slot, if_true]

/-- A word is stored that is a leaf in its place. -/
theorem Held.store (held : Held root ok mine vm) (inside : offset < 2 ^ 48)
    (leads : tableFor vm.mem root low offset = some dir)
    (leaf : ∀ lower, low = lower + 1 → pte = 0 ∨ bigSlot low .none pte = true)
    (fits : ∀ other < 2 ^ 48, other / entrySpan low = offset / entrySpan low → ok other (low, pte))
    {pool : PagePool} (list : FreeList pool) (freed : ∀ page ∈ pool.free, refOf pool page = 0)
    (fresh : ∀ page < maxPages, page ∈ pool.free ∨ pool.numPages ≤ page →
      copies vm.mem [treeOf root] (pageToPa page) = 0) (covered : Nat → Prop) :
    StepKeeps spoiled (Held root ok mine) (fun _ _ => True) root low vm
      (some 0, Vm.setPte { vm with pool := pool } ⟨dir, pdx low offset⟩ pte) covered := by
  have grounded := held.grounded
  have table := tableFor_table leads
  have ends : ∀ lower, low = lower + 1 → tableOf lower pte = none := by
    intro lower upper
    rcases leaf lower upper with rfl | slot
    · exact tableOf_zero lower
    · rw [tableOf, if_pos (upper ▸ slot)]
  have isBuilt : ∀ lower, low = lower + 1 → entryBuilt low pte := by
    intro lower upper
    rcases leaf lower upper with rfl | slot
    · exact entryBuilt_zero low
    · simp only [bigSlot, Bool.or_eq_true, Bool.and_eq_true, decide_eq_true_eq, reduceCtorEq, false_or] at slot
      rcases slot with ⟨one, big⟩ | ⟨two, big⟩
      · exact Or.inr ⟨Or.inl one, big⟩
      · exact Or.inr ⟨Or.inr two, big⟩
  refine Or.inr ⟨⟨⟨?_, freed⟩, ?_, ?_⟩, grounded.store_pointers table _ _, fun _ _ => trivial,
    fun _ _ _ => trivial⟩
  · exact grounded.storeLeaf table (pdx_bound _ _) ends isBuilt list fresh
  · intro other bound
    change ok other (leafOf (setWord _ _ _ _) _ _)
    rw [grounded.store_leaf leads inside bound ends]
    split
    · rename_i same
      exact fits other bound same
    · exact held.leaves other bound
  · intro step inner inTree
    exact held.tables step inner (Within.of_leaf inTree (grounded.levels table) ends)

end Store

/-! Calls that map. -/

/-- Without a size flag a call comes to no big page. -/
def MapOk (va len : Nat) (perm : Perm) (offset : Nat) (leaf : Nat × Ptent) : Prop :=
  perm.sized = false → ¬ (bigSlot leaf.1 .none leaf.2 = true ∧ Between 3 leaf.1 va (lastVa va len) offset)

theorem map_leafRule : LeafRule root (Held root (MapOk va len perm) fun _ => True) fun _ _ => True where
  grounded := fun _ held => held.grounded
  failing := fun _ held => ⟨held.toSound.failing, held.leaves, held.tables⟩
  growing := by
    intro vm next page held taken grounded same
    refine ⟨⟨grounded, taken.freed held.freed⟩, fun offset bound unsized => ?_, fun _ _ _ => trivial⟩
    rcases same offset with equal | ⟨blank, _⟩
    · rw [equal]
      exact held.leaves offset bound unsized
    · rw [blank]
      exact fun met => absurd ((bigSlot_zero _).symm.trans met.1) (by simp)
  same := fun _ _ _ _ _ => trivial

section Map

variable {create : Create} {low offset : Nat}

/-- What a call that maps makes of an entry that it comes to is a leaf there. -/
theorem Held.mapWord (held : Held root (MapOk va len perm) (fun _ => True) vm) (inside : offset < 2 ^ 48)
    (asked : perm.sized = false → create = .normal) (leads : tableFor vm.mem root low offset = some dir)
    (between : Between 3 low va (lastVa va len) offset)
    (visited : visitsWord create low (vm.mem dir (pdx low offset)) = true) (address : PhysAddr) :
    (∀ lower, low = lower + 1 → bigSlot low .none (pteAddr address ||| getPtePerm perm) = true) ∧
      ∀ other, MapOk va len perm other (low, pteAddr address ||| getPtePerm perm) := by
  have upper : ∀ lower, low = lower + 1 → perm.sized = true ∧ (low = 1 ∨ low = 2) := by
    rintro lower rfl
    have slot : bigSlot (lower + 1) create (vm.mem dir (pdx (lower + 1) offset)) = true := by
      simpa [visitsWord] using visited
    have middle : lower + 1 = 1 ∨ lower + 1 = 2 := by
      simp only [bigSlot, Bool.or_eq_true, Bool.and_eq_true, decide_eq_true_eq] at slot
      exact slot.imp And.left And.left
    refine ⟨?_, middle⟩
    by_contra notSized
    have unsized : perm.sized = false := by simpa using notSized
    rw [asked unsized, bigSlot_normal] at slot
    have here := held.leaves offset inside unsized
    rw [leafOf_here leads (Or.inr slot)] at here
    exact here ⟨slot, between⟩
  constructor
  · intro lower isUpper
    obtain ⟨sized, middle⟩ := upper lower isUpper
    have big := entered_big address sized
    rcases middle with rfl | rfl <;> simp [bigSlot, big]
  · intro other unsized met
    cases low with
    | zero => simp [bigSlot] at met
    | succ lower =>
        rw [(upper lower rfl).1] at unsized
        exact absurd unsized (by simp)

end Map

theorem mapCreate_unsized (unsized : perm.sized = false) : mapCreate perm = .normal := by
  simp only [Perm.sized, Bool.or_eq_false_iff] at unsized
  simp [mapCreate, unsized.1, unsized.2]

theorem held_of_not_meetsBig (sound : Sound root vm) (proper : perm.sized = true ∨ ¬ MeetsBig vm.mem root va len) :
    Held root (MapOk va len perm) (fun _ => True) vm := by
  refine ⟨sound, fun offset bound unsized met => ?_, fun _ _ _ => trivial⟩
  rcases proper with sized | apart
  · rw [sized] at unsized
    exact absurd unsized (by simp)
  · exact apart ⟨offset, bound, met⟩

theorem mapPhys_sound {pa : PhysAddr} (sound : Sound root vm)
    (proper : perm.sized = true ∨ ¬ MeetsBig vm.mem root va len) :
    spoiled (vmMapPhys root va len pa perm vm).2.pool ∨ Sound root (vmMapPhys root va len pa perm vm).2 := by
  have rule : RangeRule spoiled (Held root (MapOk va len perm) fun _ => True) (fun _ _ => True) root va
      (lastVa va len) (mapPhysHelper (getPtePerm perm) va pa) (mapCreate perm) := by
    refine map_leafRule.rangeRule (fun _ => Or.inl) allocPage_spoiled (fun _ _ _ already => already) ?_
    intro vm low dir offset held inside leads between _ _ visited
    have word := held.mapWord inside mapCreate_unsized leads between visited
      (BitVec.ofNat 64 (blockStart 3 va + offset) - BitVec.ofNat 64 va + pa)
    exact held.store inside leads (fun lower upper => Or.inr (word.1 lower upper)) (fun other _ _ => word.2 other)
      held.grounded.list held.freed held.grounded.fresh _
  rw [vmMapPhys_walk]
  rcases rule.pageWalk 3 root va (lastVa va len) 0 vm (held_of_not_meetsBig sound proper)
    (Nat.le_trans (mapLevel_le perm) (by decide)) (subWalk_top vm.mem root va (lastVa va len)) with
    gone | ⟨held, _⟩
  · exact Or.inl gone
  · exact Or.inr held.toSound

theorem mapPagesHelper_pool (pte : Ptent) (slot : PteRef) (va : Nat) (vm : Vm) :
    (mapPagesHelper pte slot va vm).2.pool = (pageAlloc vm.pool).2 := by
  unfold mapPagesHelper
  split <;> simp_all [Vm.setPte]

/-- A call of `__dune_vm_map_pages_helper`. -/
theorem Held.mapPage {low offset : Nat} (held : Held root (MapOk va len perm) (fun _ => True) vm)
    (inside : offset < 2 ^ 48) (leads : tableFor vm.mem root low offset = some dir)
    (between : Between 3 low va (lastVa va len) offset)
    (visited : visitsWord .normal low (vm.mem dir (pdx low offset)) = true) (at_ : Nat) (covered : Nat → Prop) :
    StepKeeps spoiled (Held root (MapOk va len perm) fun _ => True) (fun _ _ => True) root low vm
      (mapPagesHelper (getPtePerm perm) ⟨dir, pdx low offset⟩ at_ vm) covered := by
  rcases pageAlloc_spec held.grounded.list with ⟨page, result, taken⟩ | refused
  · have pair : pageAlloc vm.pool = (some (some page), (pageAlloc vm.pool).2) := Prod.ext result rfl
    have word := held.mapWord inside (fun _ => rfl) leads between visited (pageToPa page)
    rw [mapPagesHelper, pair]
    exact held.store inside leads (fun lower upper => Or.inr (word.1 lower upper)) (fun other _ _ => word.2 other)
      taken.list (taken.freed held.freed)
      (fun other small free => held.grounded.fresh other small (taken.still free).2) covered
  · rw [mapPagesHelper, refused]
    exact Or.inr ⟨⟨held.toSound.failing, held.leaves, held.tables⟩, PointersFrom.refl low,
      fun _ _ => trivial, fun _ _ _ => trivial⟩

theorem mapPages_sound (sound : Sound root vm) (proper : perm.sized = true ∨ ¬ MeetsBig vm.mem root va len) :
    spoiled (vmMapPages root va len perm vm).2.pool ∨ Sound root (vmMapPages root va len perm vm).2 := by
  have rule : RangeRule spoiled (Held root (MapOk va len perm) fun _ => True) (fun _ _ => True) root va
      (lastVa va len) (mapPagesHelper (getPtePerm perm)) .normal := by
    refine map_leafRule.rangeRule (fun _ => Or.inl) allocPage_spoiled (fun slot at_ vm already => ?_) ?_
    · have allocates := allocPage_spoiled vm already
      rw [allocPage_pool] at allocates
      rw [mapPagesHelper_pool]
      exact allocates
    · intro vm low dir offset held inside leads between _ _ visited
      exact held.mapPage inside leads between visited _ _
  unfold vmMapPages
  split
  · exact Or.inr sound
  · rcases rule.pageWalk 3 root va (lastVa va len) 0 vm (held_of_not_meetsBig sound proper)
      (by decide) (subWalk_top vm.mem root va (lastVa va len)) with gone | ⟨held, _⟩
    · exact Or.inl gone
    · exact Or.inr held.toSound

/-! Calls that change entries. -/

/-- A rule for walks that make no table. -/
theorem rangeRule_none {ok : Nat → Nat × Ptent → Prop} {mine : PhysAddr → Prop} {cb : PageWalkCb}
    (cbLost : ∀ slot va vm, spoiled vm.pool → spoiled (cb slot va vm).2.pool)
    (visit : ∀ vm low dir offset, Held root ok mine vm → offset < 2 ^ 48 →
      tableFor vm.mem root low offset = some dir → Between 3 low va (lastVa va len) offset →
      leafOf vm.mem root offset = (low, vm.mem dir (pdx low offset)) → vm.mem dir (pdx low offset) ≠ 0 →
      (∀ lower, low = lower + 1 → bigSlot low .none (vm.mem dir (pdx low offset)) = true) →
      StepKeeps spoiled (Held root ok mine) (fun _ _ => True) root low vm
        (cb ⟨dir, pdx low offset⟩ (blockStart 3 va + offset) vm)
        fun other => other / entrySpan low = offset / entrySpan low) :
    RangeRule spoiled (Held root ok mine) (fun _ _ => True) root va (lastVa va len) cb .none where
  cbLost := cbLost
  allocLost := Or.inl rfl
  visit := by
    intro vm low dir offset held inside leads between _ _ visited
    cases low with
    | zero =>
        have nonzero : vm.mem dir (pdx 0 offset) ≠ 0 := by simpa [visitsWord] using visited
        exact visit vm 0 dir offset held inside leads between (leafOf_here leads (Or.inl rfl)) nonzero (by simp)
    | succ lower =>
        have slot : bigSlot (lower + 1) .none (vm.mem dir (pdx (lower + 1) offset)) = true := by
          simpa [visitsWord] using visited
        exact visit vm (lower + 1) dir offset held inside leads between (leafOf_here leads (Or.inr slot))
          (bigSlot_ne_zero slot) fun _ _ => slot
  refused := Or.inl rfl
  install := Or.inl rfl

theorem mprotect_sound (sound : Sound root vm) :
    spoiled (vmMprotect root va len perm vm).2.pool ∨ Sound root (vmMprotect root va len perm vm).2 := by
  have rule : RangeRule spoiled (Held root (fun _ _ => True) fun _ => True) (fun _ _ => True) root va
      (lastVa va len) (mprotectHelper (getPtePerm perm.allowed)) .none := by
    refine rangeRule_none (fun _ _ _ already => already) ?_
    intro vm low dir offset held inside leads _ _ _ slot
    refine held.store inside leads (fun lower upper => Or.inr ?_) (fun _ _ _ => trivial) held.grounded.list
      held.freed held.grounded.fresh _
    subst upper
    exact visitedWord_protected perm (show visitedWord (lower + 1) _ = true from slot lower rfl)
  unfold vmMprotect
  split
  · exact Or.inr sound
  · rcases rule.pageWalk 3 root va (lastVa va len) 0 vm ⟨sound, fun _ _ => trivial, fun _ _ _ => trivial⟩
      (by decide) (subWalk_top vm.mem root va (lastVa va len)) with gone | ⟨held, _⟩
    · exact Or.inl gone
    · exact Or.inr held.toSound

/-- A page that is no table occurs nowhere in the tree. -/
theorem copies_of_not_table {mem : PhysAddr → Nat → Ptent} {page : PhysAddr}
    (apart : ∀ low, ¬ (treeOf root).Table mem low page) : copies mem [treeOf root] page = 0 := by
  by_contra occurs
  have counted : occurrences nptentries tableOf mem page (treeOf root).level (treeOf root).root ≠ 0 := by
    simpa [copies, total, tree_occurrences] using occurs
  obtain ⟨low, inside⟩ := exists_within_of_occurrences counted
  exact apart low inside

theorem pagePut_free {page other : Nat} {pool : PagePool} (free : other ∈ (pagePut page pool).2.free) :
    other = page ∨ other ∈ pool.free := by
  unfold pagePut at free
  split at free
  · dsimp only at free
    generalize (if pool.ref page = 0 then 2 ^ 64 - 1 else pool.ref page - 1) = left at free
    split at free
    · exact List.mem_cons.mp free
    · exact Or.inr free
  · exact Or.inr free

/-- The entries that a call of `dune_vm_unmap` clears map no table of the root. -/
def UnmapOk (mine : PhysAddr → Prop) (va len : Nat) (offset : Nat) (leaf : Nat × Ptent) : Prop :=
  leaf.2 ≠ 0 → Between 3 leaf.1 va (lastVa va len) offset → ¬ mine (pteAddr leaf.2)

/-- A call of `__dune_vm_free_helper`. -/
theorem Held.free {mine : PhysAddr → Prop} {low offset : Nat} (held : Held root (UnmapOk mine va len) mine vm)
    (inside : offset < 2 ^ 48) (leads : tableFor vm.mem root low offset = some dir)
    (between : Between 3 low va (lastVa va len) offset)
    (here : leafOf vm.mem root offset = (low, vm.mem dir (pdx low offset)))
    (nonzero : vm.mem dir (pdx low offset) ≠ 0) (at_ : Nat) (covered : Nat → Prop) :
    StepKeeps spoiled (Held root (UnmapOk mine va len) mine) (fun _ _ => True) root low vm
      (freeHelper ⟨dir, pdx low offset⟩ at_ vm) covered := by
  have blank : ∀ other < 2 ^ 48, other / entrySpan low = offset / entrySpan low →
      UnmapOk mine va len other (low, 0) := fun _ _ _ isNonzero => absurd rfl isNonzero
  by_cases large : outgrown maxPages vm.pool
  · exact Or.inl (freeHelper_lost pagePut_spoiled _ at_ vm (Or.inl large))
  unfold freeHelper
  dsimp only
  split
  · rename_i fromPool
    obtain ⟨page, inPool, mapped, isPage⟩ := pageIsFromPool_page (Nat.not_lt.mp large) fromPool
    rw [isPage]
    by_cases unreferenced : vm.pool.ref page = 0
    · left
      right
      simp [pagePut, inPool, unreferenced, Vm.setPte]
    · obtain ⟨after, put, list, freed, _, numPages, _⟩ := pagePut_spec held.grounded.list held.freed inPool
        (by rw [refOf, if_pos inPool]; omega)
      have isAfter : (pagePut page vm.pool).2 = after := by rw [put]
      rw [put]
      refine held.store inside leads (fun _ _ => Or.inl rfl) blank list freed (fun other small free => ?_) covered
      -- the page that is put is none of the tables
      have source : other = page ∨ other ∈ vm.pool.free ∨ vm.pool.numPages ≤ other := by
        rcases free with listed | outside
        · rw [← isAfter] at listed
          exact (pagePut_free listed).imp_right Or.inl
        · exact Or.inr (Or.inr (numPages ▸ outside))
      rcases source with rfl | free
      · apply copies_of_not_table
        intro step inTree
        rw [← mapped] at inTree
        have apart := held.leaves offset inside
        rw [here] at apart
        exact apart nonzero between (held.tables step _ inTree)
      · exact held.grounded.fresh other small free
  · exact held.store inside leads (fun _ _ => Or.inl rfl) blank held.grounded.list held.freed
      held.grounded.fresh covered

theorem unmap_sound (sound : Sound root vm) (proper : ¬ MapsTable vm.mem root va len) :
    spoiled (vmUnmap root va len vm).2.pool ∨ Sound root (vmUnmap root va len vm).2 := by
  have rule : RangeRule spoiled
      (Held root (UnmapOk (fun page => ∃ low, (treeOf root).Table vm.mem low page) va len) fun page =>
        ∃ low, (treeOf root).Table vm.mem low page) (fun _ _ => True) root va (lastVa va len) freeHelper .none :=
    rangeRule_none (freeHelper_lost pagePut_spoiled)
      fun _ _ _ _ held inside leads between here nonzero _ => held.free inside leads between here nonzero _ _
  have start : Held root (UnmapOk (fun page => ∃ low, (treeOf root).Table vm.mem low page) va len)
      (fun page => ∃ low, (treeOf root).Table vm.mem low page) vm := by
    refine ⟨sound, fun offset bound nonzero between isTable => ?_, fun low _ inTree => ⟨low, inTree⟩⟩
    exact proper ⟨offset, bound, nonzero, between, isTable⟩
  have walked := rule.pageWalk 3 root va (lastVa va len) 0 vm start (by decide)
    (subWalk_top vm.mem root va (lastVa va len))
  have state : (vmUnmap root va len vm).2 = (pageWalk freeHelper .none 3 root va (lastVa va len) vm).2 := by
    rw [vmUnmap]
    split <;> simp_all
  rw [state]
  rcases walked with gone | ⟨held, _⟩
  · exact Or.inl gone
  · exact Or.inr held.toSound

/-! Runs. -/

/-- A call on the root, or a change of what the host will map for the pool. -/
inductive VmCall
  | mapPhys (va len : Nat) (pa : PhysAddr) (perm : Perm)
  | mapPages (va len : Nat) (perm : Perm)
  | mprotect (va len : Nat) (perm : Perm)
  | unmap (va len : Nat)
  | host (mmapOk : PhysAddr → Bool)

def VmCall.run (root : PhysAddr) (vm : Vm) : VmCall → Vm
  | .mapPhys va len pa perm => (vmMapPhys root va len pa perm vm).2
  | .mapPages va len perm => (vmMapPages root va len perm vm).2
  | .mprotect va len perm => (vmMprotect root va len perm vm).2
  | .unmap va len => (vmUnmap root va len vm).2
  | .host mmapOk => { vm with pool := { vm.pool with mmapOk := mmapOk } }

/-- A call for 4 KB pages comes to no big page, and `dune_vm_unmap` puts no table of the root. -/
def VmCall.proper (root : PhysAddr) (vm : Vm) : VmCall → Prop
  | .mapPhys va len _ perm => perm.sized = true ∨ ¬ MeetsBig vm.mem root va len
  | .mapPages va len perm => perm.sized = true ∨ ¬ MeetsBig vm.mem root va len
  | .mprotect _ _ _ => True
  | .unmap va len => ¬ MapsTable vm.mem root va len
  | .host _ => True

/-- The states that proper calls reach from a fresh root while the pool is not spoiled. -/
inductive Reached (root : PhysAddr) : Vm → Prop
  | start {mmapOk : PhysAddr → Bool} {ref : Nat → Nat} {pool : PagePool} {mem : PhysAddr → Nat → Ptent} :
      pageInit mmapOk ref = some pool → (∀ page < maxPages, root ≠ pageToPa page) →
      (∀ index, mem root index = 0) → Reached root ⟨pool, mem⟩
  | step {vm : Vm} (call : VmCall) : Reached root vm → call.proper root vm →
      ¬ spoiled (call.run root vm).pool → Reached root (call.run root vm)

theorem fresh_grounded {pool : PagePool} {mem : PhysAddr → Nat → Ptent} (list : FreeList pool)
    (outside : ∀ page < maxPages, root ≠ pageToPa page) (zero : ∀ index, mem root index = 0) :
    Grounded entryBuilt [treeOf root] ⟨pool, mem⟩ := by
  have same : cleared mem root = mem := by
    funext dir index
    rw [cleared]
    split
    · rename_i isRoot
      rw [isRoot, zero]
    · rfl
  have empty : Forest entryBuilt mem [] := ⟨fun _ => by simp [copies, total], by simp⟩
  have planted : Forest entryBuilt (cleared mem root) [⟨3, root, true⟩] :=
    empty.plant (by simp [copies, total]) 3 true entryBuilt_zero
  rw [same] at planted
  refine ⟨planted, list, fun page small _ => copies_of_not_table fun low inTree => ?_⟩
  have isRoot : pageToPa page = root :=
    Within.of_blank inTree (fun index _ => zero index) fun level => tableOf_zero level
  exact outside page small isRoot.symm

/-- Proper calls keep a root sound. -/
theorem VmCall.sound (call : VmCall) (sound : Sound root vm) (proper : call.proper root vm) :
    spoiled (call.run root vm).pool ∨ Sound root (call.run root vm) := by
  cases call with
  | mapPhys va len pa perm => exact mapPhys_sound sound proper
  | mapPages va len perm => exact mapPages_sound sound proper
  | mprotect va len perm => exact mprotect_sound sound
  | unmap va len => exact unmap_sound sound proper
  | host mmapOk =>
      exact Or.inr ⟨⟨sound.grounded.forest, ⟨sound.grounded.list.nodup, sound.grounded.list.inPool⟩,
        sound.grounded.fresh⟩, sound.freed⟩

theorem Reached.sound (reached : Reached root vm) : Sound root vm := by
  induction reached with
  | start initialised outside zero =>
      obtain ⟨list, freed, _⟩ := pageInit_spec initialised
      exact ⟨fresh_grounded list outside zero, freed⟩
  | step call _ proper unspoiled ih => exact (call.sound ih proper).resolve_left unspoiled

theorem blankVm_reached : Reached 0x1000#64 blankVm := by
  refine .start blankVm_pool (fun page small same => ?_) fun _ => rfl
  have value := congrArg BitVec.toNat same
  rw [pageToPa_toNat (maxPages_small small)] at value
  simp at value
  omega

end RdmaPaging
