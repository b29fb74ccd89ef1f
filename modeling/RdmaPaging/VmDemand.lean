import RdmaPaging.PoolRuns
import RdmaPaging.VmCalls
import RdmaPaging.VmOrder

/-!
What a walk that maps pages asks of the pool. Every entry of the range at which the tables end
gets one page, and the pool gives the pages of its free list before it grows.
-/

namespace RdmaPaging

open RadixTree

/-! Allocations in a row. -/

/-- The number of pages after `count` allocations: windows are added when the free list is used up. -/
@[grind =] def sizeAfter (pool : PagePool) (count : Nat) : Nat :=
  pool.numPages + (count - pool.free.length + (growSizePages - 1)) / growSizePages * growSizePages

/-- `after` is `before` with `count` pages allocated and none put back. -/
structure Took (before : PagePool) (count : Nat) (after : PagePool) : Prop where
  numPages : after.numPages = sizeAfter before count
  length : after.free.length + count = before.free.length + (after.numPages - before.numPages)
  listed : count ≤ before.free.length → after.free = before.free.drop count
  newer : before.free.length ≤ count → ∀ page ∈ after.free, before.numPages ≤ page

theorem sizeAfter_mono (pool : PagePool) {count more : Nat} (order : count ≤ more) :
    sizeAfter pool count ≤ sizeAfter pool more := by
  simp only [sizeAfter, growSizePages]
  omega

theorem le_sizeAfter (pool : PagePool) (count : Nat) : pool.numPages ≤ sizeAfter pool count :=
  Nat.le_add_right _ _

theorem Took.none (pool : PagePool) : Took pool 0 pool where
  numPages := by simp [sizeAfter, growSizePages]
  length := by omega
  listed := fun _ => rfl
  newer := by
    intro short page listed
    rw [List.eq_nil_of_length_eq_zero (Nat.le_zero.mp short)] at listed
    exact absurd listed (by simp)

/-- A pool with a page left does not grow. -/
theorem sizeAfter_spare {pool : PagePool} {count : Nat}
    (spare : count < pool.free.length + (sizeAfter pool count - pool.numPages)) :
    sizeAfter pool (count + 1) = sizeAfter pool count := by
  simp only [sizeAfter, growSizePages] at spare ⊢
  omega

/-- A pool without a page left grows by one window. -/
theorem sizeAfter_full {pool : PagePool} {count : Nat}
    (full : count = pool.free.length + (sizeAfter pool count - pool.numPages)) :
    sizeAfter pool (count + 1) = sizeAfter pool count + growSizePages := by
  simp only [sizeAfter, growSizePages] at full ⊢
  omega

/-- The first page of the free list is taken. -/
theorem Took.first {before pool after : PagePool} {count page : Nat} {rest : List Nat}
    (took : Took before count pool) (list : FreeList before) (first : pool.free = page :: rest)
    (samePages : after.numPages = pool.numPages) (left : after.free = rest) :
    Took before (count + 1) after ∧ (page ∈ before.free ↔ count < before.free.length) := by
  have length := took.length
  rw [first, List.length_cons, took.numPages] at length
  have size := sizeAfter_spare
    (show count < before.free.length + (sizeAfter before count - before.numPages) by omega)
  have lengthAfter : after.free.length + (count + 1) =
      before.free.length + (after.numPages - before.numPages) := by
    rw [left, samePages, took.numPages]
    omega
  have numPages : after.numPages = sizeAfter before (count + 1) := by
    rw [samePages, took.numPages, size]
  by_cases early : count < before.free.length
  · have dropped := took.listed (Nat.le_of_lt early)
    rw [first, List.drop_eq_getElem_cons early, List.cons.injEq] at dropped
    obtain ⟨rfl, rfl⟩ := dropped
    refine ⟨⟨numPages, lengthAfter, fun _ => left, fun short other member => ?_⟩, by simp [early]⟩
    rw [left, List.drop_eq_nil_of_le short] at member
    exact absurd member (by simp)
  · have new := took.newer (Nat.not_lt.mp early)
    rw [first] at new
    refine ⟨⟨numPages, lengthAfter, by omega, fun _ other member => ?_⟩, ?_⟩
    · rw [left] at member
      exact new other (List.mem_cons_of_mem _ member)
    · simp only [early, iff_false]
      intro old
      have bound := list.inPool page old
      have outside := new page List.mem_cons_self
      omega

/-- A window is added, and its last page taken. -/
theorem Took.grown {before pool grown : PagePool} {count page : Nat} (took : Took before count pool)
    (list : FreeList before) (empty : pool.free = []) (ran : growSize pool = some grown)
    (result : (takeFirst grown).1 = some (some page)) :
    Took before (count + 1) (takeFirst grown).2 ∧ (page ∈ before.free ↔ count < before.free.length) := by
  have length := took.length
  rw [empty, List.length_nil, took.numPages] at length
  have full : count = before.free.length + (sizeAfter before count - before.numPages) := by omega
  have size := sizeAfter_full full
  have start : before.numPages ≤ sizeAfter before count := Nat.le_add_right _ _
  have window : insertedPages pool.numPages growSizePages =
      (pool.numPages + 511) :: insertedPages pool.numPages 511 := insertedPages_last rfl
  unfold growSize at ran
  split at ran
  · obtain rfl := Option.some.inj ran
    rw [empty, List.append_nil, window] at result ⊢
    rw [takeFirst_cons rfl (by simp [growSizePages])] at result ⊢
    obtain rfl : pool.numPages + 511 = page := by simpa using result
    have numPages := took.numPages
    refine ⟨⟨?_, ?_, by omega, fun _ other member => ?_⟩, ?_⟩
    · rw [size, ← numPages]
    · simp only [insertedPages, List.length_reverse, List.length_range', growSizePages]
      omega
    · simp only [insertedPages, List.mem_reverse, List.mem_range'_1] at member
      omega
    · constructor
      · intro old
        have bound := list.inPool _ old
        omega
      · intro early
        omega
  · simp at ran

/-- An allocation takes the next page, from the free list for as long as it lasts. -/
theorem Took.alloc {before pool : PagePool} {count page : Nat} (took : Took before count pool)
    (list : FreeList before) (sound : FreeList pool) (result : (pageAlloc pool).1 = some (some page)) :
    Took before (count + 1) (pageAlloc pool).2 ∧ (page ∈ before.free ↔ count < before.free.length) := by
  cases free : pool.free with
  | cons first rest =>
      rw [pageAlloc_first free (sound.inPool first (by simp [free]))] at result ⊢
      obtain rfl : first = page := by simpa using result
      exact took.first list free rfl rfl
  | nil =>
      unfold pageAlloc at result ⊢
      rw [free] at result ⊢
      dsimp only at result ⊢
      split at result
      · rename_i grown ran
        exact took.grown list free ran result
      · simp at result

/-! Entries without a page. -/

variable {mem next : PhysAddr → Nat → Ptent} {root : PhysAddr} {firstVa lastVa low offset : Nat}

instance (level low startVa endVa offset : Nat) : Decidable (Between level low startVa endVa offset) :=
  inferInstanceAs (Decidable (_ ∧ _))

/-- The entries of a range, by level and number, that name neither a table nor a page. -/
def unmet (mem : PhysAddr → Nat → Ptent) (root : PhysAddr) (firstVa lastVa : Nat) : Finset (Nat × Nat) :=
  (Finset.range 4 ×ˢ Finset.range (2 ^ 36)).filter fun entry =>
    Between 3 entry.1 firstVa lastVa (entry.2 * entrySpan entry.1) ∧
      entry.1 ≤ (leafOf mem root (entry.2 * entrySpan entry.1)).1 ∧
      (leafOf mem root (entry.2 * entrySpan entry.1)).2 = 0

theorem between_same {level startVa endVa other : Nat} (same : other / entrySpan low = offset / entrySpan low) :
    Between level low startVa endVa other ↔ Between level low startVa endVa offset := by
  rw [Between, Between, same]

theorem entry_floor (low offset : Nat) : offset / entrySpan low * entrySpan low / entrySpan low =
    offset / entrySpan low := Nat.mul_div_cancel _ (entrySpan_pos low)

theorem mem_unmet {number : Nat} : (low, number) ∈ unmet mem root firstVa lastVa ↔
    low ≤ 3 ∧ number * entrySpan low < 2 ^ 48 ∧ Between 3 low firstVa lastVa (number * entrySpan low) ∧
      low ≤ (leafOf mem root (number * entrySpan low)).1 ∧ (leafOf mem root (number * entrySpan low)).2 = 0 := by
  have span : entrySpan (3 + 1) = 2 ^ 48 := rfl
  have below : Between 3 low firstVa lastVa (number * entrySpan low) → number * entrySpan low < 2 ^ 48 := by
    intro between
    have last := between.2
    rw [Nat.mul_div_cancel _ (entrySpan_pos low), Nat.le_div_iff_mul_le (entrySpan_pos low), span] at last
    have highest := Nat.mod_lt lastVa (show 0 < 2 ^ 48 by decide)
    omega
  have page : number * entrySpan low < 2 ^ 48 → number < 2 ^ 36 := by
    intro inside
    have least := Nat.mul_le_mul_left number (Nat.le_of_dvd (entrySpan_pos low) (entrySpan_dvd (Nat.zero_le low)))
    rw [entrySpan_zero] at least
    omega
  rw [unmet, Finset.mem_filter, Finset.mem_product, Finset.mem_range, Finset.mem_range]
  constructor
  · rintro ⟨⟨level, _⟩, between, ends⟩
    exact ⟨Nat.le_of_lt_succ level, below between, between, ends⟩
  · rintro ⟨level, inside, between, ends⟩
    exact ⟨⟨Nat.lt_succ_of_le level, page inside⟩, between, ends⟩

/-- The addresses of an entry at which the tables end have one leaf. -/
theorem leafOf_shared {other : Nat} (deep : low ≤ (leafOf mem root offset).1)
    (same : other / entrySpan low = offset / entrySpan low) (inside : offset < 2 ^ 48)
    (otherInside : other < 2 ^ 48) : leafOf mem root other = leafOf mem root offset := by
  refine leafAt_shared deep fun step above bound => pdx_number above bound ?_
  rw [Nat.mod_eq_of_lt inside, Nat.mod_eq_of_lt otherInside, same]

/-- Any address of an entry tells whether it has a page. -/
theorem unmet_iff (inside : offset < 2 ^ 48) :
    (low, offset / entrySpan low) ∈ unmet mem root firstVa lastVa ↔
      low ≤ 3 ∧ Between 3 low firstVa lastVa offset ∧ low ≤ (leafOf mem root offset).1 ∧
        (leafOf mem root offset).2 = 0 := by
  have floor := entry_floor low offset
  have floorInside : offset / entrySpan low * entrySpan low < 2 ^ 48 :=
    Nat.lt_of_le_of_lt (Nat.div_mul_le_self _ _) inside
  rw [mem_unmet, between_same floor]
  constructor
  · rintro ⟨level, _, between, deep, blank⟩
    rw [leafOf_shared deep floor.symm floorInside inside]
    exact ⟨level, between, deep, blank⟩
  · rintro ⟨level, between, deep, blank⟩
    rw [leafOf_shared deep floor inside floorInside]
    exact ⟨level, floorInside, between, deep, blank⟩

/-- An entry at which the tables end is given a page. -/
theorem unmet_erase
    (old : ∀ other < 2 ^ 48, other / entrySpan low = offset / entrySpan low →
      leafOf mem root other = (low, 0))
    (new : ∀ other < 2 ^ 48, other / entrySpan low = offset / entrySpan low → ∀ level,
      level ≤ (leafOf next root other).1 ∧ (leafOf next root other).2 = 0 ↔ level < low)
    (rest : ∀ other < 2 ^ 48, other / entrySpan low ≠ offset / entrySpan low →
      leafOf next root other = leafOf mem root other) :
    unmet next root firstVa lastVa = (unmet mem root firstVa lastVa).erase (low, offset / entrySpan low) := by
  ext ⟨level, number⟩
  rw [Finset.mem_erase, mem_unmet, mem_unmet]
  by_cases inside : number * entrySpan level < 2 ^ 48
  · by_cases same : number * entrySpan level / entrySpan low = offset / entrySpan low
    · have isEntry : level = low → number = offset / entrySpan low := by
        rintro rfl
        rw [← same, Nat.mul_div_cancel _ (entrySpan_pos _)]
      rw [new _ inside same, old _ inside same, Ne, Prod.mk.injEq]
      constructor
      · rintro ⟨bound, _, between, lower⟩
        exact ⟨by omega, bound, inside, between, Nat.le_of_lt lower, rfl⟩
      · rintro ⟨apart, bound, _, between, lower, _⟩
        refine ⟨bound, inside, between, ?_⟩
        by_contra notLower
        obtain rfl : level = low := by omega
        exact apart ⟨rfl, isEntry rfl⟩
    · have apart : (level, number) ≠ (low, offset / entrySpan low) := by
        intro isEntry
        obtain ⟨rfl, rfl⟩ := Prod.mk.inj isEntry
        exact same (entry_floor _ _)
      rw [rest _ inside same]
      simp only [apart, ne_eq, not_false_eq_true, true_and]
  · simp only [inside, false_and, and_false]

theorem leafOf_le {dir : PhysAddr} (leads : tableFor mem root low offset = some dir) :
    (leafOf mem root offset).1 ≤ low := by
  rw [leafOf, leafAt_of_tableAt leads]
  exact leafAt_le low dir

/-- The entries without a page end after a position. -/
def Late (mem : PhysAddr → Nat → Ptent) (root : PhysAddr) (firstVa lastVa position : Nat) : Prop :=
  ∀ level number, (level, number) ∈ unmet mem root firstVa lastVa → position < (number + 1) * entrySpan level

theorem Late.start : Late mem root firstVa lastVa 0 :=
  fun level number _ => Nat.mul_pos (Nat.succ_pos number) (entrySpan_pos level)

/-- At the end of a walk every entry of the range has its page. -/
theorem Late.finish (late : Late mem root firstVa lastVa (2 ^ 48)) : unmet mem root firstVa lastVa = ∅ := by
  refine Finset.eq_empty_of_forall_notMem fun ⟨level, number⟩ member => ?_
  obtain ⟨bound, inside, _⟩ := mem_unmet.mp member
  have ahead := late level number member
  obtain ⟨count, whole⟩ : entrySpan level ∣ 2 ^ 48 := entrySpan_canonical (Nat.le_succ_of_le bound)
  rw [Nat.mul_comm] at whole
  rw [whole] at inside ahead
  have fits := Nat.lt_of_mul_lt_mul_right inside
  have beyond := Nat.lt_of_mul_lt_mul_right ahead
  omega

/-- No entry without a page ends in a gap. -/
theorem Late.jump {level base here there : Nat} {dir : PhysAddr} (late : Late mem root firstVa lastVa here)
    (gap : RangeGap mem root firstVa lastVa level dir base here there) : Late mem root firstVa lastVa there := by
  intro step number member
  by_contra ends
  have ended := Nat.not_lt.mp ends
  have begins := late step number member
  have pos := entrySpan_pos step
  have after : (number + 1) * entrySpan step = number * entrySpan step + entrySpan step := by
    rw [Nat.add_mul, Nat.one_mul]
  by_cases lower : step ≤ level
  · obtain ⟨count, isHere⟩ := Nat.dvd_trans (entrySpan_dvd lower) gap.entry
    rw [isHere, Nat.mul_comm] at begins
    have order := Nat.mul_le_mul_right (entrySpan step) (Nat.le_of_lt_succ (Nat.lt_of_mul_lt_mul_right begins))
    rw [Nat.mul_comm count, ← isHere] at order
    exact gap.empty step lower _ order (by omega) (mem_unmet.mp member).2.2.1
  · -- the entry is one on the way to the table, and ends with it
    have small : entrySpan (level + 1) ∣ entrySpan step := entrySpan_dvd (Nat.lt_of_not_le lower)
    have width := Nat.le_of_dvd pos small
    obtain ⟨first, isBase⟩ := gap.aligned
    obtain ⟨last, isEnd⟩ := Nat.dvd_trans small (Nat.dvd_mul_left (entrySpan step) (number + 1))
    have above := gap.above
    have below := gap.below
    have inside := gap.inside
    have tight : last = first + 1 := by
      have more : first < last := by
        apply Nat.lt_of_mul_lt_mul_left (a := entrySpan (level + 1))
        omega
      have less : last < first + 2 := by
        apply Nat.lt_of_mul_lt_mul_left (a := entrySpan (level + 1))
        rw [Nat.mul_add]
        have some_ := entrySpan_pos (level + 1)
        omega
      omega
    rw [tight, Nat.mul_add, Nat.mul_one, ← isBase] at isEnd
    have some_ := entrySpan_pos (level + 1)
    have number_ : base / entrySpan step = number := Nat.div_eq_of_lt_le (by omega) (by omega)
    rw [← number_] at member
    have deep := ((unmet_iff (by omega)).mp member).2.2.1
    have shallow := leafOf_le gap.table
    omega

section Steps

variable {vm : Vm} {dir : PhysAddr} (grounded : Grounded entryBuilt [treeOf root] vm)

include grounded

section Install

variable {page : Nat} {pool : PagePool} (taken : Taken vm.pool page pool) (small : pool.numPages ≤ maxPages)
variable (leads : tableFor vm.mem root (low + 1) offset = some dir) (inside : offset < 2 ^ 48)

include taken small leads inside

/-- The leaves after a table is entered. -/
theorem Grounded.newTable_at {other : Nat} (otherInside : other < 2 ^ 48) :
    leafOf (installed vm.mem dir (pdx (low + 1) offset) (pageToPa page)) root other =
      if other / entrySpan (low + 1) = offset / entrySpan (low + 1) then (low, 0)
      else leafOf vm.mem root other := by
  rw [grounded.newTable_grown taken small leads]
  simp only [grounded.route_iff leads inside otherInside]

/-- A table meets the demand of its entry. -/
theorem Grounded.newTable_unmet
    (notBig : bigSlot (low + 1) .none (vm.mem dir (pdx (low + 1) offset)) = false)
    (absent : ptePresent (vm.mem dir (pdx (low + 1) offset)) = false) :
    unmet (installed vm.mem dir (pdx (low + 1) offset) (pageToPa page)) root firstVa lastVa =
      (unmet vm.mem root firstVa lastVa).erase (low + 1, offset / entrySpan (low + 1)) := by
  apply unmet_erase
  · intro other bound same
    rw [leafOf_end leads same inside bound (by simp [tableOf, absent]),
      grounded.newTable_empty leads absent notBig]
  · intro other bound same level
    rw [grounded.newTable_at taken small leads inside bound, if_pos same]
    simp [Nat.lt_succ_iff]
  · intro other bound apart
    rw [grounded.newTable_at taken small leads inside bound, if_neg apart]

end Install

variable {pte : Ptent} (leads : tableFor vm.mem root 0 offset = some dir) (inside : offset < 2 ^ 48)

include leads inside

/-- A page meets the demand of its entry. -/
theorem Grounded.store_unmet (blank : (leafOf vm.mem root offset).2 = 0) (nonzero : pte ≠ 0) :
    unmet (setWord vm.mem dir (pdx 0 offset) pte) root firstVa lastVa =
      (unmet vm.mem root firstVa lastVa).erase (0, offset / entrySpan 0) := by
  apply unmet_erase
  · intro other bound same
    have level : (leafOf vm.mem root offset).1 = 0 := Nat.le_zero.mp (leafOf_le leads)
    rw [leafOf_shared (Nat.zero_le _) same inside bound]
    exact Prod.ext level blank
  · intro other bound same level
    rw [grounded.store_leaf leads inside bound (by simp), if_pos same]
    exact ⟨fun waits => absurd waits.2 nonzero, fun negative => absurd negative (Nat.not_lt_zero level)⟩
  · intro other bound apart
    rw [grounded.store_leaf leads inside bound (by simp), if_neg apart]

/-- After the page of an entry the demand goes on behind it. -/
theorem Grounded.store_late (blank : (leafOf vm.mem root offset).2 = 0) (nonzero : pte ≠ 0)
    (aligned : entrySpan 0 ∣ offset) (late : Late vm.mem root firstVa lastVa offset) :
    Late (setWord vm.mem dir (pdx 0 offset) pte) root firstVa lastVa (offset + entrySpan 0) := by
  have here : leafOf (setWord vm.mem dir (pdx 0 offset) pte) root offset = (0, pte) := by
    rw [grounded.store_leaf leads inside inside (by simp), if_pos rfl]
  intro level number member
  have old := member
  rw [grounded.store_unmet leads inside blank nonzero, Finset.mem_erase] at old
  have begins := late level number old.2
  by_contra ends
  have pos := entrySpan_pos level
  have after : (number + 1) * entrySpan level = number * entrySpan level + entrySpan level := by
    rw [Nat.add_mul, Nat.one_mul]
  -- the entry holds the page, so its demand is met
  obtain ⟨page, isPage⟩ := aligned
  obtain ⟨last, isEnd⟩ := Nat.dvd_trans (entrySpan_dvd (Nat.zero_le level))
    (Nat.dvd_mul_left (entrySpan level) (number + 1))
  rw [entrySpan_zero] at isPage isEnd ends
  have least := Nat.le_of_dvd pos (entrySpan_dvd (Nat.zero_le level))
  rw [entrySpan_zero] at least
  have holds : offset / entrySpan level = number := Nat.div_eq_of_lt_le (by omega) begins
  rw [← holds, unmet_iff inside, here] at member
  exact nonzero member.2.2.2

end Steps

end RdmaPaging
