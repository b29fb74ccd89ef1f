import RdmaPaging.Machine
import RdmaPaging.VmRoots

/-!
Runs of the page-table operations over several roots that share one page pool.
-/

namespace RdmaPaging

open RadixTree

inductive VmOp
  | mapPages (root : PhysAddr) (va len : Nat) (perm : Perm)
  | mprotect (root : PhysAddr) (va len : Nat) (perm : Perm)
  | unmap (root : PhysAddr) (va len : Nat)
  | clone (root : PhysAddr)
  | free (root : PhysAddr)

/-- The live roots, with those that `dune_vm_clone` made kept apart. -/
structure VmState where
  vm : Vm
  roots : List PhysAddr
  clones : List PhysAddr
  died : Bool

def VmState.after {α : Type} (state : VmState) (outcome : Option α × Vm) : VmState :=
  { state with vm := outcome.2, died := outcome.1.isNone }

def VmState.cloned (state : VmState) : Option (Option PhysAddr) × Vm → VmState
  | (some (some newRoot), vm) => { state with vm := vm, clones := newRoot :: state.clones }
  | (some none, vm) => { state with vm := vm }
  | (none, vm) => { state with vm := vm, died := true }

def VmState.freed (state : VmState) (root : PhysAddr) (outcome : Option Unit × Vm) : VmState :=
  { state.after outcome with clones := state.clones.erase root }

def VmState.isLive (state : VmState) (root : PhysAddr) : Bool := root ∈ state.clones ++ state.roots

/-- One operation on a live root. Only clones are freed. -/
def vmStep (state : VmState) : VmOp → Option VmState
  | .mapPages root va len perm =>
      if ¬ state.died ∧ state.isLive root then
        some (state.after (vmMapPages root va len perm state.vm))
      else none
  | .mprotect root va len perm =>
      if ¬ state.died ∧ state.isLive root then
        some (state.after (vmMprotect root va len perm state.vm))
      else none
  | .unmap root va len =>
      if ¬ state.died ∧ state.isLive root then some (state.after (vmUnmap root va len state.vm))
      else none
  | .clone root =>
      if ¬ state.died ∧ state.isLive root then some (state.cloned (vmClone root state.vm))
      else none
  | .free root =>
      if ¬ state.died ∧ root ∈ state.clones then some (state.freed root (vmFree root state.vm))
      else none

def VmState.live (state : VmState) : List Tree := (state.clones ++ state.roots).map treeOf

/-- Fewer than `2 ^ 19` pages: `num_pages * PGSIZE` does not overflow. -/
def fewPages (state : VmState) (_ : VmOp) : Prop := state.vm.pool.numPages < 2 ^ 19

/-- Roots without big entries, outside the pool, that map no page of the pool. -/
structure OutsideRoots (mem : PhysAddr → Nat → Ptent) (roots : List PhysAddr) : Prop where
  forest : Forest entryPlain mem (roots.map treeOf)
  tables : ∀ root ∈ roots, ∀ low dir, (treeOf root).Table mem low dir →
    ∀ page < 2 ^ 19, dir ≠ pageToPa page
  entries : ∀ root ∈ roots, ∀ dir index, (treeOf root).Table mem 0 dir → index < nptentries →
    ∀ page < 2 ^ 19, pteAddr (mem dir index) ≠ pageToPa page

/-- No free page is a table of a live root or mapped by it, every page has as many
references as uses, and no unreferenced page was put. -/
def PoolSafe (state : VmState) : Prop :=
  (∀ page ∈ state.vm.pool.free, ∀ root ∈ state.clones ++ state.roots,
    (∀ low dir, (treeOf root).Table state.vm.mem low dir → dir ≠ pageToPa page) ∧
    ∀ dir index, (treeOf root).Table state.vm.mem 0 dir → index < nptentries →
      pteAddr (state.vm.mem dir index) ≠ pageToPa page) ∧
  (∀ page < state.vm.pool.numPages,
    uses state.vm.mem state.live page ≤ state.vm.pool.ref page) ∧
  state.vm.pool.putZero = false

variable {window : Nat} {live : List Tree} {vm : Vm} {root : PhysAddr} {state : VmState}

/-- While the pool has not outgrown the window, every page is accounted for and every
clone is a page of the pool. -/
structure RunInv (window : Nat) (state : VmState) : Prop where
  accounted : Accounted window state.live state.vm
  clones : ∀ root ∈ state.clones, ∃ page < window, root = pageToPa page

def RunKept (window : Nat) (state : VmState) : Prop :=
  outgrown window state.vm.pool ∨ RunInv window state

theorem runKept_of_keeps {next : Vm} {died : Bool} (inv : RunInv window state)
    (keeps : Keeps (outgrown window) (Accounted window state.live) state.live state.vm next) :
    RunKept window { state with vm := next, died := died } :=
  keeps.imp_right fun later => ⟨later.1, inv.clones⟩

theorem isLive_tree (isLive : state.isLive root = true) : treeOf root ∈ state.live :=
  List.mem_map_of_mem (by simpa [VmState.isLive] using isLive)

theorem RunInv.poolSafe (inv : RunInv window state) : PoolSafe state := by
  have accounted := inv.accounted
  refine ⟨fun page listed root member => ?_, fun page inPool => ?_, accounted.noZero⟩
  · have inTree : treeOf root ∈ state.live := List.mem_map_of_mem member
    have bound : page < window :=
      Nat.lt_of_lt_of_le (accounted.list.inPool page listed) accounted.inWindow
    have unused := accounted.unused bound (Or.inl listed)
    refine ⟨fun low dir table isPage => ?_, fun dir index table inRange mapped => ?_⟩
    · subst isPage
      have counted := copies_le_uses state.vm.mem state.live page
      have used := table.copies_pos inTree
      omega
    · have used := accounted.leaf_used inTree inRange table rfl mapped
      omega
  · have backed := accounted.backed page (Nat.lt_of_lt_of_le inPool accounted.inWindow)
    simpa [refOf, inPool] using backed

section Operations

variable (va len : Nat) (perm : Perm)
variable (windowBound : window ≤ maxPages) (accounted : Accounted window live vm)
variable (member : treeOf root ∈ live)

include accounted member

theorem vmMprotect_keeps : Keeps (outgrown window) (Accounted window live) live vm
    (vmMprotect root va len perm vm).2 := by
  unfold vmMprotect
  split
  · exact Keeps.refl accounted
  · have walked := (mprotectHelper_walkKeeps member
      (if perm.has permR then perm else 0)).pageWalk 3 root va (lastVa va len) vm
      accounted ((treeOf root).rootTable vm.mem)
    exact walked.imp_left False.elim

include windowBound

theorem vmMapPages_keeps : Keeps (outgrown window) (Accounted window live) live vm
    (vmMapPages root va len perm vm).2 := by
  unfold vmMapPages
  split
  · exact Keeps.refl accounted
  · exact (mapPagesHelper_walkKeeps windowBound member perm).pageWalk 3 root va (lastVa va len) vm
      accounted ((treeOf root).rootTable vm.mem)

theorem vmUnmap_keeps : Keeps (outgrown window) (Accounted window live) live vm
    (vmUnmap root va len vm).2 := by
  have walked := (freeHelper_walkKeeps windowBound member rfl).pageWalk 3 root va (lastVa va len) vm
    accounted ((treeOf root).rootTable vm.mem)
  unfold vmUnmap
  generalize pageWalk freeHelper .none 3 root va (lastVa va len) vm = outcome at walked ⊢
  rcases outcome with ⟨_ | ret, next⟩
  · exact walked.imp_left False.elim
  · exact walked.imp_left False.elim

end Operations

/-- `dune_vm_clone` after its root is allocated and cleared: the walk, and the clean-up. -/
theorem cloned_of_walk {page : Nat} {pool : PagePool}
    (taken : pageAlloc state.vm.pool = (some (some page), pool)) (kept : VmState → Prop)
    (walked : ∀ ret vm, pageWalk (cloneHelper (pageToPa page)) .none 3 root vaStart vaEnd
        (Vm.clearPage { state.vm with pool := pool } (pageToPa page)) = (ret, vm) →
      kept { state with vm := vm, died := true } ∧
      kept { state with vm := (vmFree (pageToPa page) vm).2 } ∧
      kept { state with vm := (vmFree (pageToPa page) vm).2, died := true } ∧
      kept { state with vm := vm, clones := pageToPa page :: state.clones }) :
    kept (state.cloned (vmClone root state.vm)) := by
  have allocated : allocPage state.vm =
      (some (some (pageToPa page)), { state.vm with pool := pool }) := by
    simp [allocPage, taken]
  unfold vmClone
  rw [allocated]
  dsimp only
  split
  · rename_i ret vm outcome
    have cases := walked _ _ outcome
    split
    · split
      all_goals
        rename_i freed
        rw [freed] at cases
      · exact cases.2.1
      · exact cases.2.2.1
    · exact cases.2.2.2
  · rename_i vm outcome
    exact (walked _ _ outcome).1

theorem clone_kept (few : window < 2 ^ 19) (inv : RunInv window state)
    (member : treeOf root ∈ state.live) :
    RunKept window (state.cloned (vmClone root state.vm)) := by
  have windowBound : window ≤ maxPages := by
    unfold maxPages
    omega
  rcases inv.accounted.alloc with ⟨page, pool, taken, outcome⟩ | ⟨pool, refused, later⟩
  · apply cloned_of_walk taken
    intro ret vm walked
    have kept : outgrown window vm.pool ∨ page < window ∧
        Accounted window (treeOf (pageToPa page) :: state.live) vm := by
      rcases outcome with gone | ⟨pageBound, unused, referenced, later⟩
      · left
        have after : outgrown window (pageWalk (cloneHelper (pageToPa page)) .none 3 root vaStart
            vaEnd (Vm.clearPage { state.vm with pool := pool } (pageToPa page))).2.pool := by
          refine pageWalk_lost (fun slot va vm already => ?_) (Or.inl rfl) _ _ _ _ _ gone
          exact cloneHelper_outgrown _ slot va vm already
        rw [walked] at after
        exact after
      · have exactPool : true = true → window < 2 ^ 19 := fun _ => few
        have tree := cloneWalk_accounted windowBound exactPool later member rfl rfl pageBound
          unused referenced
        have result : pageWalk (cloneHelper (pageToPa page)) .none 3 (treeOf root).root vaStart vaEnd
          (Vm.clearPage { state.vm with pool := pool } (pageToPa page)) = (ret, vm) := walked
        rw [result] at tree
        exact tree.imp_right fun accounted => ⟨pageBound, accounted⟩
    rcases kept with gone | ⟨pageBound, accounted⟩
    · have freed := vmFree_lost pagePut_outgrown (pageToPa page) vm gone
      exact ⟨Or.inl gone, Or.inl freed, Or.inl freed, Or.inl gone⟩
    · have freed := vmFree_accounted windowBound pageBound accounted
      refine ⟨Or.inr ⟨accounted.drop, inv.clones⟩, Or.inr ⟨freed, inv.clones⟩,
        Or.inr ⟨freed, inv.clones⟩, Or.inr ⟨accounted, ?_⟩⟩
      intro other listed
      rcases List.mem_cons.mp listed with isNew | old
      · exact ⟨page, pageBound, isNew⟩
      · exact inv.clones other old
  · have allocated : allocPage state.vm = (some none, { state.vm with pool := pool }) := by
      simp [allocPage, refused]
    unfold vmClone
    rw [allocated]
    exact Or.inr ⟨later, inv.clones⟩

theorem free_kept (windowBound : window ≤ maxPages) (inv : RunInv window state)
    (listed : root ∈ state.clones) :
    RunKept window (state.freed root (vmFree root state.vm)) := by
  obtain ⟨page, pageBound, isPage⟩ := inv.clones root listed
  subst isPage
  have shape : state.live.Perm (treeOf (pageToPa page) ::
      (state.clones.erase (pageToPa page) ++ state.roots).map treeOf) := by
    have order := (List.perm_cons_erase listed).append_right state.roots
    exact order.map treeOf
  have freed := vmFree_accounted windowBound pageBound (inv.accounted.perm shape)
  exact Or.inr ⟨freed, fun other kept => inv.clones other (List.mem_of_mem_erase kept)⟩

/-- One operation keeps every page accounted for. -/
theorem vmStep_kept (few : window < 2 ^ 19) {op : VmOp} {next : VmState}
    (inv : RunInv window state) (stepped : vmStep state op = some next) : RunKept window next := by
  have windowBound : window ≤ maxPages := by
    unfold maxPages
    omega
  cases op with
  | mapPages root va len perm =>
      simp only [vmStep, Option.ite_none_right_eq_some, Option.some.injEq] at stepped
      obtain ⟨⟨_, isLive⟩, rfl⟩ := stepped
      exact runKept_of_keeps inv
        (vmMapPages_keeps va len perm windowBound inv.accounted (isLive_tree isLive))
  | mprotect root va len perm =>
      simp only [vmStep, Option.ite_none_right_eq_some, Option.some.injEq] at stepped
      obtain ⟨⟨_, isLive⟩, rfl⟩ := stepped
      exact runKept_of_keeps inv (vmMprotect_keeps va len perm inv.accounted (isLive_tree isLive))
  | unmap root va len =>
      simp only [vmStep, Option.ite_none_right_eq_some, Option.some.injEq] at stepped
      obtain ⟨⟨_, isLive⟩, rfl⟩ := stepped
      exact runKept_of_keeps inv
        (vmUnmap_keeps va len windowBound inv.accounted (isLive_tree isLive))
  | clone root =>
      simp only [vmStep, Option.ite_none_right_eq_some, Option.some.injEq] at stepped
      obtain ⟨⟨_, isLive⟩, rfl⟩ := stepped
      exact clone_kept few inv (isLive_tree isLive)
  | free root =>
      simp only [vmStep, Option.ite_none_right_eq_some, Option.some.injEq] at stepped
      obtain ⟨⟨_, listed⟩, rfl⟩ := stepped
      exact free_kept windowBound inv listed

theorem outside_uses {mem : PhysAddr → Nat → Ptent} {roots : List PhysAddr} {page : Nat}
    (outside : OutsideRoots mem roots) (bound : page < 2 ^ 19) :
    uses mem (roots.map treeOf) page = 0 := by
  rw [uses, total, List.sum_eq_zero_iff]
  intro weight listed
  simp only [List.map_map, List.mem_map, Function.comp_apply] at listed
  obtain ⟨root, member, rfl⟩ := listed
  refine weigh_eq_zero 3 root (fun low dir table => ?_) fun dir table index inRange => ?_
  · exact if_neg (outside.tables root member low dir table page bound)
  · exact if_neg (outside.entries root member dir index table inRange page bound)

theorem pageInit_runInv {mmapOk : PhysAddr → Bool} {ref : Nat → Nat} {pool : PagePool}
    {mem : PhysAddr → Nat → Ptent} {roots : List PhysAddr}
    (initialised : pageInit mmapOk ref = some pool) (outside : OutsideRoots mem roots)
    (room : growSizePages ≤ window) (few : window < 2 ^ 19) :
    RunInv window ⟨⟨pool, mem⟩, roots, [], false⟩ := by
  obtain ⟨list, freed, noZero, numPages⟩ := pageInit_spec initialised
  refine ⟨⟨outside.forest, fun page bound => ?_, list, freed, noZero, numPages ▸ room⟩, by simp⟩
  have unused := outside_uses outside (show page < 2 ^ 19 by omega)
  exact Nat.le_trans (Nat.le_of_eq unused) (Nat.zero_le _)

/-- From `dune_page_init` on, no free page is in use. -/
theorem free_pages_unused {mmapOk : PhysAddr → Bool} {ref : Nat → Nat} {pool : PagePool}
    {mem : PhysAddr → Nat → Ptent} {roots : List PhysAddr} {state : VmState}
    (initialised : pageInit mmapOk ref = some pool) (outside : OutsideRoots mem roots)
    (reached : Machine.Reaches vmStep fewPages ⟨⟨pool, mem⟩, roots, [], false⟩ state)
    (few : state.vm.pool.numPages < 2 ^ 19) : PoolSafe state := by
  obtain ⟨window, isWindow⟩ : ∃ window, window + 1 = 2 ^ 19 := ⟨524287, by norm_num⟩
  have kept : RunKept window state := by
    refine reached.invariant (RunKept window) (Or.inr ?_) fun before op next inv allowed stepped => ?_
    · refine pageInit_runInv initialised outside ?_ (by omega)
      unfold growSizePages
      omega
    · have inside : ¬ outgrown window before.vm.pool := by
        unfold fewPages at allowed
        unfold outgrown
        omega
      exact vmStep_kept (by omega) (inv.resolve_left inside) stepped
  rcases kept with gone | inv
  · unfold outgrown at gone
    omega
  · exact inv.poolSafe

theorem blankRoot_outside (root : PhysAddr) (small : root.toNat < 0x200000000) :
    OutsideRoots (fun _ _ => 0) [root] := by
  refine ⟨Forest.blank root entryPlain_zero, ?_, ?_⟩
  · intro other listed low dir table page bound isPage
    rw [List.mem_singleton] at listed
    subst listed
    rw [blank_table table] at isPage
    have value := congrArg BitVec.toNat isPage
    rw [pageToPa_toNat (by omega)] at value
    omega
  · intro other listed dir index table inRange page bound isPage
    exact pageToPa_ne_zero (by omega) (isPage.symm.trans (by decide))

def blankRun : VmState := ⟨blankVm, [0x1000#64], [], false⟩

def mappedRun : VmState :=
  blankRun.after (vmMapPages 0x1000#64 0 4096 (permR ||| permW) blankRun.vm)

def clonedRun : VmState := mappedRun.cloned (vmClone 0x1000#64 mappedRun.vm)

/-- The pool stays small, and the run neither frees a root twice nor dies. -/
theorem clonedRun_facts : mappedRun.vm.pool.numPages < 2 ^ 19 ∧ clonedRun.clones = [pageToPa 507] ∧
    clonedRun.died = false ∧ clonedRun.vm.pool.numPages < 2 ^ 19 := by decide +kernel

theorem free_pages_unused_cloned :
    clonedRun.clones = [pageToPa 507] ∧ clonedRun.died = false ∧ PoolSafe clonedRun := by
  obtain ⟨few, clones, died, still⟩ := clonedRun_facts
  have begun : Machine.Reaches vmStep fewPages blankRun blankRun := Machine.Reaches.refl
  have mapped : Machine.Reaches vmStep fewPages blankRun mappedRun :=
    begun.tail (show blankRun.vm.pool.numPages < 2 ^ 19 by decide +kernel)
      (show vmStep blankRun (.mapPages 0x1000#64 0 4096 (permR ||| permW)) = some mappedRun by
        rw [vmStep, if_pos (by decide +kernel), mappedRun])
  have cloned : Machine.Reaches vmStep fewPages blankRun clonedRun :=
    mapped.tail few
      (show vmStep mappedRun (.clone 0x1000#64) = some clonedRun by
        rw [vmStep, if_pos (by decide +kernel), clonedRun])
  exact ⟨clones, died, free_pages_unused blankVm_pool (blankRoot_outside _ (by decide)) cloned still⟩

end RdmaPaging
