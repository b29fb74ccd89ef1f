import Mathlib.Order.Interval.Finset.Nat
import RdmaPaging.VmDemand
import RdmaPaging.VmMapPhys

/-!
A pool that does not run out. A walk that makes tables asks for no more of them than its range has
entries above the pages, and a pool whose windows the host maps has them.
-/

namespace RdmaPaging

open RadixTree

/-- The host maps every window that the pool may grow by. -/
def HostMaps (pool : PagePool) : Prop :=
  ∀ numPages < maxPages, pool.mmapOk (pageBase + poolBytes numPages) = true

/-- `pool` is the pool `start` with `count` pages allocated. -/
structure Drawn (start : PagePool) (count : Nat) (pool : PagePool) : Prop where
  took : Took start count pool
  list : FreeList pool
  sameHost : pool.mmapOk = start.mmapOk

/-- A call returns 0 and allocates `most` pages at most. -/
def Draws (start : PagePool) (count most : Nat) (outcome : Option Int × Vm) : Prop :=
  outcome.1 = some 0 ∧ ∃ more ≤ most, Drawn start (count + more) outcome.2.pool

variable {start pool : PagePool} {count most : Nat} {vm : Vm}

theorem Drawn.refl (list : FreeList start) : Drawn start 0 start :=
  ⟨Took.none start, list, rfl⟩

theorem Draws.more {outcome : Option Int × Vm} {larger : Nat} (draws : Draws start count most outcome)
    (order : most ≤ larger) : Draws start count larger outcome := by
  obtain ⟨returns, more, bound, drawn⟩ := draws
  exact ⟨returns, more, Nat.le_trans bound order, drawn⟩

theorem takeFirst_some (pool : PagePool) : (takeFirst pool).1 ≠ some none := by
  unfold takeFirst
  split
  · simp
  · split <;> simp

theorem pageAlloc_mmapOk (pool : PagePool) : (pageAlloc pool).2.mmapOk = pool.mmapOk := by
  unfold pageAlloc
  split
  · split
    · rename_i grown ran
      obtain ⟨ref, free, taken⟩ := takeFirst_pool grown
      rw [taken]
      unfold growSize at ran
      split at ran
      · rw [← Option.some.inj ran]
      · simp at ran
    · rfl
  · obtain ⟨ref, free, taken⟩ := takeFirst_pool pool
    rw [taken]

/-- Below `MAX_PAGES` a page is allocated. -/
theorem Drawn.alloc (list : FreeList start) (host : HostMaps start) (drawn : Drawn start count pool)
    (fits : sizeAfter start (count + 1) ≤ maxPages) :
    ∃ page, (pageAlloc pool).1 = some (some page) ∧ Drawn start (count + 1) (pageAlloc pool).2 := by
  rcases pageAlloc_spec drawn.list with ⟨page, result, taken⟩ | refused
  · exact ⟨page, result, (drawn.took.alloc list drawn.list result).1, taken.list,
      (pageAlloc_mmapOk pool).trans drawn.sameHost⟩
  · exfalso
    cases free : pool.free with
    | cons first rest =>
        rw [pageAlloc_first free (drawn.list.inPool first (by simp [free]))] at refused
        simp at refused
    | nil =>
        have length := drawn.took.length
        rw [free, List.length_nil, drawn.took.numPages] at length
        have full : count = start.free.length + (sizeAfter start count - start.numPages) := by omega
        have grows := sizeAfter_full full
        have below : pool.numPages < maxPages := by
          rw [drawn.took.numPages]
          unfold growSizePages at grows
          omega
        have mapped := host pool.numPages below
        rw [← drawn.sameHost] at mapped
        have result := congrArg Prod.fst refused
        unfold pageAlloc at result
        rw [free] at result
        simp only [growSize, if_pos mapped] at result
        exact takeFirst_some _ result

theorem Drawn.allocPage (list : FreeList start) (host : HostMaps start) (drawn : Drawn start count vm.pool)
    (fits : sizeAfter start (count + 1) ≤ maxPages) :
    ∃ page next, allocPage vm = (some (some page), { vm with pool := next }) ∧
      Drawn start (count + 1) next := by
  obtain ⟨page, result, after⟩ := drawn.alloc list host fits
  have pair : pageAlloc vm.pool = (some (some page), (pageAlloc vm.pool).2) := Prod.ext result rfl
  exact ⟨pageToPa page, _, by rw [RdmaPaging.allocPage, pair], after⟩

/-! Walks. -/

/-- The tables that a walk of a table of a level may have to make. -/
def rangeTables : Nat → Nat → Nat → Nat
  | 0, _, _ => 0
  | level + 1, startVa, endVa => ((walkIndices (level + 1) startVa endVa).map fun index =>
      1 + rangeTables level (belowStart (level + 1) startVa index)
        (belowEnd (level + 1) startVa endVa index)).sum

theorem walkLoop_draws {body : Nat → Vm → Option Int × Vm} {cost : Nat → Nat} (indices : List Nat)
    (each : ∀ index ∈ indices, ∀ vm count, Drawn start count vm.pool →
      sizeAfter start (count + cost index) ≤ maxPages → Draws start count (cost index) (body index vm))
    (drawn : Drawn start count vm.pool) (fits : sizeAfter start (count + (indices.map cost).sum) ≤ maxPages) :
    Draws start count (indices.map cost).sum (walkLoop body indices vm) := by
  induction indices generalizing vm count with
  | nil => exact ⟨rfl, 0, Nat.le_refl _, drawn⟩
  | cons index rest ih =>
      rw [List.map_cons, List.sum_cons] at fits ⊢
      have room : sizeAfter start (count + cost index) ≤ maxPages :=
        Nat.le_trans (sizeAfter_mono start (by omega)) fits
      obtain ⟨returns, more, bound, after⟩ := each index List.mem_cons_self vm count drawn room
      have called : body index vm = (some 0, (body index vm).2) := Prod.ext returns rfl
      obtain ⟨restReturns, restMore, restBound, restAfter⟩ :=
        ih (fun other member => each other (List.mem_cons_of_mem _ member)) after
          (Nat.le_trans (sizeAfter_mono start (by omega)) fits)
      rw [walkLoop, called]
      exact ⟨restReturns, more + restMore, by omega, by rwa [← Nat.add_assoc]⟩

/-- A walk that makes its tables goes on to its end. -/
theorem pageWalk_draws {cb : PageWalkCb} {create : Create} (creates : create ≠ .none)
    (stores : ∀ slot va vm, (cb slot va vm).1 = some 0 ∧ (cb slot va vm).2.pool = vm.pool)
    (list : FreeList start) (host : HostMaps start) (level : Nat) (dir : PhysAddr) (startVa endVa : Nat)
    (drawn : Drawn start count vm.pool)
    (fits : sizeAfter start (count + rangeTables level startVa endVa) ≤ maxPages) :
    Draws start count (rangeTables level startVa endVa) (pageWalk cb create level dir startVa endVa vm) := by
  have calls : ∀ slot va (vm : Vm) count most, Drawn start count vm.pool →
      Draws start count most (cb slot va vm) := by
    intro slot va vm count most drawn
    obtain ⟨returns, same⟩ := stores slot va vm
    exact ⟨returns, 0, Nat.zero_le _, by rwa [same]⟩
  induction level generalizing dir startVa endVa vm count with
  | zero =>
      have free : ((walkIndices 0 startVa endVa).map fun _ => 0).sum = rangeTables 0 startVa endVa := by
        simp [rangeTables]
      rw [← free] at fits ⊢
      rw [pageWalk]
      refine walkLoop_draws _ (fun index _ vm count drawn _ => ?_) drawn fits
      rw [walkLeaf]
      split
      · exact calls _ _ vm count 0 drawn
      · exact ⟨rfl, 0, Nat.le_refl _, drawn⟩
  | succ level ih =>
      rw [pageWalk, rangeTables]
      refine walkLoop_draws _ (fun index _ vm count drawn room => ?_) drawn fits
      have below : ∀ dir (vm : Vm) count, Drawn start count vm.pool →
          sizeAfter start (count + rangeTables level (belowStart (level + 1) startVa index)
            (belowEnd (level + 1) startVa endVa index)) ≤ maxPages →
          Draws start count (rangeTables level (belowStart (level + 1) startVa index)
            (belowEnd (level + 1) startVa endVa index)) (pageWalk cb create level dir
              (belowStart (level + 1) startVa index) (belowEnd (level + 1) startVa endVa index) vm) :=
        fun dir vm count drawn fits => ih dir _ _ drawn fits
      rw [walkEntry]
      by_cases big : bigSlot (level + 1) create (vm.mem dir index) = true
      · simp only [big, if_true]
        exact calls _ _ vm count _ drawn
      · by_cases present : ptePresent (vm.mem dir index) = true
        · simp only [big, present, if_true]
          exact (below _ vm count drawn (Nat.le_trans (sizeAfter_mono start (by omega)) room)).more (by omega)
        · obtain ⟨page, next, allocated, after⟩ := drawn.allocPage list host
            (Nat.le_trans (sizeAfter_mono start (by omega)) room)
          simp only [big, present, creates, allocated]
          obtain ⟨returns, more, bound, further⟩ := below
            (pteAddr ((installTable { vm with pool := next } ⟨dir, index⟩ page).mem dir index))
            (installTable { vm with pool := next } ⟨dir, index⟩ page) (count + 1) after
            (by rwa [Nat.add_assoc])
          exact ⟨returns, 1 + more, by omega, by rwa [← Nat.add_assoc]⟩

/-! The entries of a range. -/

/-- The numbers of the entries of a level that a range meets in a table. -/
def rangeEntries (level low startVa endVa : Nat) : Finset Nat :=
  (Finset.range (entrySpan (level + 1) / entrySpan low)).filter fun number =>
    Between level low startVa endVa (number * entrySpan low)

variable {level low startVa endVa : Nat}

theorem rangeEntries_top (level startVa endVa : Nat) :
    (walkIndices level startVa endVa).length ≤ (rangeEntries level level startVa endVa).card := by
  have nodup : (walkIndices level startVa endVa).Nodup := List.nodup_range'
  rw [← List.toFinset_card_of_nodup nodup]
  refine Finset.card_le_card fun index member => ?_
  have inRange := List.mem_toFinset.mp member
  have pos := entrySpan_pos level
  have width : entrySpan (level + 1) / entrySpan level = nptentries := by
    rw [entrySpan_succ, Nat.mul_div_cancel _ pos]
  obtain ⟨first, last⟩ := mem_walkIndices.mp inRange
  rw [rangeEntries, Finset.mem_filter, Finset.mem_range, width, Between, ← pdx_mod, ← pdx_mod,
    Nat.mul_div_cancel _ pos]
  exact ⟨walkIndices_bound inRange, first, last⟩

/-- The parts of the range below the entries of a table have the entries of the whole range. -/
theorem rangeEntries_parts (below : low ≤ level) (bound : level ≤ 2) :
    ((walkIndices (level + 1) startVa endVa).map fun index => (rangeEntries level low
      (belowStart (level + 1) startVa index) (belowEnd (level + 1) startVa endVa index)).card).sum ≤
      (rangeEntries (level + 1) low startVa endVa).card := by
  obtain ⟨width, span⟩ := span_ratio (show low ≤ level + 1 by omega)
  have pos := entrySpan_pos low
  have whole : entrySpan (level + 2) = nptentries * width * entrySpan low := by
    rw [entrySpan_succ, span, Nat.mul_assoc]
  have nodup : (walkIndices (level + 1) startVa endVa).Nodup := List.nodup_range'
  rw [← List.sum_toFinset _ nodup, ← Finset.card_sigma]
  have inPart : ∀ index number, number ∈ rangeEntries level low (belowStart (level + 1) startVa index)
      (belowEnd (level + 1) startVa endVa index) →
      number < width ∧ number * entrySpan low < entrySpan (level + 1) ∧
        Between level low (belowStart (level + 1) startVa index) (belowEnd (level + 1) startVa endVa index)
          (number * entrySpan low) := by
    intro index number member
    rw [rangeEntries, Finset.mem_filter, Finset.mem_range, span, Nat.mul_div_cancel _ pos] at member
    exact ⟨member.1, by rw [span]; exact Nat.mul_lt_mul_of_pos_right member.1 pos, member.2⟩
  refine Finset.card_le_card_of_injOn (fun entry => entry.1 * width + entry.2) ?_ ?_
  · rintro ⟨index, number⟩ member
    obtain ⟨inRange, inTable⟩ := Finset.mem_sigma.mp member
    obtain ⟨small, inside, first, last⟩ := inPart index number inTable
    have indices := mem_walkIndices.mp (List.mem_toFinset.mp inRange)
    have bounded : index < nptentries := walkIndices_bound (List.mem_toFinset.mp inRange)
    have position : (index * width + number) * entrySpan low =
        index * entrySpan (level + 1) + number * entrySpan low := by
      rw [span, Nat.add_mul, Nat.mul_assoc]
    have most : index * width + number < nptentries * width := by
      have next := Nat.mul_le_mul_right width (show index + 1 ≤ nptentries by omega)
      rw [Nat.add_mul, Nat.one_mul] at next
      omega
    rw [Finset.mem_coe, rangeEntries, Finset.mem_filter, Finset.mem_range, whole, Nat.mul_div_cancel _ pos]
    refine ⟨most, ?_, ?_⟩
    · rw [position]
      exact (first_iff below inside).mpr ⟨indices.1, first⟩
    · rw [position]
      exact (last_iff below inside bound).mpr ⟨indices.2, last⟩
  · rintro ⟨index, number⟩ member ⟨other, second⟩ otherMember
      (same : index * width + number = other * width + second)
    have small := (inPart index number (Finset.mem_sigma.mp member).2).1
    have otherSmall := (inPart other second (Finset.mem_sigma.mp otherMember).2).1
    have positive : 0 < width := by omega
    have indexSame : index = other := by
      have quotient := congrArg (· / width) same
      simpa [Nat.mul_comm _ width, Nat.mul_add_div positive, Nat.div_eq_of_lt small,
        Nat.div_eq_of_lt otherSmall] using quotient
    subst indexSame
    rw [Nat.add_left_cancel same]

/-- Each table that a walk makes is below an entry of its range. -/
theorem rangeTables_le (bound : level ≤ 3) : rangeTables level startVa endVa ≤
    ∑ low ∈ Finset.range level, (rangeEntries level (low + 1) startVa endVa).card := by
  induction level generalizing startVa endVa with
  | zero => exact Nat.zero_le _
  | succ level ih =>
      rw [rangeTables, Finset.sum_range_succ]
      have parts : ((walkIndices (level + 1) startVa endVa).map fun index => rangeTables level
          (belowStart (level + 1) startVa index) (belowEnd (level + 1) startVa endVa index)).sum ≤
          ∑ low ∈ Finset.range level, (rangeEntries (level + 1) (low + 1) startVa endVa).card := by
        have nodup : (walkIndices (level + 1) startVa endVa).Nodup := List.nodup_range'
        rw [← List.sum_toFinset _ nodup]
        refine Nat.le_trans (Finset.sum_le_sum fun index _ => ih (by omega)) ?_
        rw [Finset.sum_comm]
        refine Finset.sum_le_sum fun low member => ?_
        rw [List.sum_toFinset _ nodup]
        exact rangeEntries_parts (Finset.mem_range.mp member) (by omega)
      have ones := rangeEntries_top (level + 1) startVa endVa
      have single : ((walkIndices (level + 1) startVa endVa).map fun _ => 1).sum =
          (walkIndices (level + 1) startVa endVa).length := by simp
      rw [List.sum_map_add, single]
      omega

/-- A range of one half meets an entry or two more than its length has. -/
theorem rangeEntries_len {va len : Nat} (half : OneHalf va len) (positive : 0 < len) (low : Nat) :
    (rangeEntries 3 low va (lastVa va len)).card ≤ len / entrySpan low + 2 := by
  have pos := entrySpan_pos low
  have last := lastVa_offset half positive
  have span : entrySpan (3 + 1) = 2 ^ 48 := rfl
  have inside : rangeEntries 3 low va (lastVa va len) ⊆
      Finset.Icc (va % 2 ^ 48 / entrySpan low) ((va % 2 ^ 48 + len - 1) / entrySpan low) := by
    intro number member
    have between := (Finset.mem_filter.mp member).2
    rw [Between, span, last, Nat.mul_div_cancel _ pos] at between
    exact Finset.mem_Icc.mpr between
  have count := Finset.card_le_card inside
  rw [Nat.card_Icc] at count
  have sum : (va % 2 ^ 48 + len - 1) / entrySpan low ≤
      va % 2 ^ 48 / entrySpan low + len / entrySpan low + 1 := by
    have first := Nat.div_add_mod (va % 2 ^ 48) (entrySpan low)
    have second := Nat.div_add_mod len (entrySpan low)
    have firstRest := Nat.mod_lt (va % 2 ^ 48) pos
    have secondRest := Nat.mod_lt len pos
    rw [Nat.div_le_iff_le_mul_add_pred pos, Nat.mul_add, Nat.mul_add]
    omega
  exact Nat.le_trans count (Nat.sub_le_of_le_add (by rw [Nat.add_comm]; omega))

/-- The tables that suffice for a range of a length, wherever it starts. -/
def tablesFor (len : Nat) : Nat := len / entrySpan 1 + len / entrySpan 2 + len / entrySpan 3 + 6

theorem rangeTables_len {va len : Nat} (half : OneHalf va len) (positive : 0 < len) :
    rangeTables 3 va (lastVa va len) ≤ tablesFor len := by
  have tables : rangeTables 3 va (lastVa va len) ≤
      ∑ low ∈ Finset.range 3, (rangeEntries 3 (low + 1) va (lastVa va len)).card :=
    rangeTables_le (Nat.le_refl 3)
  have first := rangeEntries_len half positive 1
  have second := rangeEntries_len half positive 2
  have third := rangeEntries_len half positive 3
  simp only [Finset.sum_range_succ, Finset.sum_range_zero, Nat.zero_add, Nat.reduceAdd] at tables
  unfold tablesFor
  omega

/-- `dune_vm_map_phys` returns 0. -/
theorem vmMapPhys_draws (root pa : PhysAddr) (perm : Perm) {va len : Nat} (half : OneHalf va len)
    (positive : 0 < len) (list : FreeList start) (host : HostMaps start) (drawn : Drawn start count vm.pool)
    (fits : sizeAfter start (count + tablesFor len) ≤ maxPages) :
    Draws start count (tablesFor len) (vmMapPhys root va len pa perm vm) := by
  have tables := rangeTables_len half positive
  have creates : mapCreate perm ≠ .none := by
    unfold mapCreate
    split
    · simp
    · split <;> simp
  have stores : ∀ slot at_ vm, (mapPhysHelper (getPtePerm perm) va pa slot at_ vm).1 = some 0 ∧
      (mapPhysHelper (getPtePerm perm) va pa slot at_ vm).2.pool = vm.pool := fun _ _ _ => ⟨rfl, rfl⟩
  rw [vmMapPhys_walk]
  exact (pageWalk_draws creates stores list host 3 root va (lastVa va len) drawn
    (Nat.le_trans (sizeAfter_mono start (by omega)) fits)).more tables

theorem lookupFrom_draws {va : Nat} (list : FreeList start) (host : HostMaps start) (level : Nat)
    (dir : PhysAddr) (drawn : Drawn start count vm.pool) (fits : sizeAfter start (count + level) ≤ maxPages) :
    ∃ slot next, lookupFrom va .normal level dir vm = (some (some slot), next) ∧
      ∃ more ≤ level, Drawn start (count + more) next.pool := by
  induction level generalizing dir vm count with
  | zero => exact ⟨_, _, rfl, 0, Nat.le_refl _, drawn⟩
  | succ level ih =>
      rw [lookupFrom]
      split
      · exact ⟨_, _, rfl, 0, Nat.zero_le _, drawn⟩
      · rw [lookupThrough, lookupTable]
        by_cases present : ptePresent (vm.mem dir (pdx (level + 1) va)) = true
        · rw [if_pos present]
          obtain ⟨slot, next, looks, more, bound, after⟩ :=
            ih (pteAddr (vm.mem dir (pdx (level + 1) va))) drawn
              (Nat.le_trans (sizeAfter_mono start (by omega)) fits)
          exact ⟨slot, next, looks, more, by omega, after⟩
        · obtain ⟨page, pool, allocated, taken⟩ := drawn.allocPage list host
            (Nat.le_trans (sizeAfter_mono start (by omega)) fits)
          rw [if_neg present, if_neg (by simp), allocated]
          have made : Drawn start (count + 1)
              (installTable { vm with pool := pool } ⟨dir, pdx (level + 1) va⟩ page).pool := taken
          obtain ⟨slot, next, looks, more, bound, after⟩ :=
            ih page made (by rwa [Nat.add_assoc, Nat.add_comm 1])
          exact ⟨slot, next, looks, 1 + more, by omega, by rwa [← Nat.add_assoc]⟩

/-- A lookup that makes its tables finds an entry. -/
theorem vmLookup_draws (root : PhysAddr) (va : Nat) (list : FreeList start) (host : HostMaps start)
    (drawn : Drawn start count vm.pool) (fits : sizeAfter start (count + 3) ≤ maxPages) :
    ∃ slot next, vmLookup root va .normal vm = (some (some slot), next) ∧
      ∃ more ≤ 3, Drawn start (count + more) next.pool := by
  rw [vmLookup_from]
  exact lookupFrom_draws list host 3 root drawn fits

end RdmaPaging
