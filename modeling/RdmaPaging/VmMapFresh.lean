import RdmaPaging.VmDemand

/-!
`dune_vm_map_pages` over a range without mappings. The walk gives each page of the range a page of
its own that was not in use, and each table that it needs one more. All other leaves and all
references stay as they were.
-/

namespace RdmaPaging

open RadixTree

/-- The entry that `dune_vm_map_pages` makes for a page. -/
def mappedTo (perm : Perm) (page : Nat) : Ptent := pteAddr (pageToPa page) ||| getPtePerm perm

/-- The walk of a range comes to the page of an offset. -/
def Walked (va len offset : Nat) : Prop := Between 3 0 va (lastVa va len) offset

/-- A page that was not in use is mapped once, and is no table. -/
structure Lent (root : PhysAddr) (before vm : Vm) (page : Nat) : Prop where
  inPool : page < vm.pool.numPages
  unused : refOf before.pool page = 0
  once : refOf vm.pool page = 1
  apart : copies vm.mem [treeOf root] (pageToPa page) = 0

/-- The pages that the map takes before it maps the first one: the tables on its way. -/
def tablesFirst (root : PhysAddr) (va : Nat) (before : Vm) : Nat := (leafOf before.mem root va).1

/-- What the pages and tables that the map takes come to. -/
def mapDemand (root : PhysAddr) (va len : Nat) (before : Vm) : Nat :=
  (unmet before.mem root va (lastVa va len)).card

/-- The state when the entries below `position` are done and `count` pages are taken. -/
structure MapKept (root : PhysAddr) (va len : Nat) (perm : Perm) (before : Vm) (count position : Nat)
    (vm : Vm) : Prop where
  grounded : Grounded entryBuilt [treeOf root] vm
  sound : PoolSound vm.pool
  small : vm.pool.numPages ≤ maxPages
  took : Took before.pool count vm.pool
  counted : count + (unmet vm.mem root va (lastVa va len)).card = mapDemand root va len before
  late : Late vm.mem root va (lastVa va len) position
  outside : ∀ offset < 2 ^ 48, ¬ (Walked va len offset ∧ offset < position) →
    SameLeaf (leafOf vm.mem root offset) (leafOf before.mem root offset)
  mapped : ∀ offset < 2 ^ 48, Walked va len offset → offset < position → ∃ page,
    leafOf vm.mem root offset = (0, mappedTo perm page) ∧ Lent root before vm page ∧
      (page ∈ before.pool.free → tablesFirst root va before < before.pool.free.length)
  apart : ∀ offset < 2 ^ 48, Walked va len offset → offset < position →
    ∀ other < 2 ^ 48, Walked va len other → other < position →
      leafOf vm.mem root offset = leafOf vm.mem root other → offset / entrySpan 0 = other / entrySpan 0
  refs : ∀ page, 1 ≤ refOf before.pool page → refOf vm.pool page = refOf before.pool page
  given : ∀ page, refOf before.pool page = 0 → refOf vm.pool page = 0 ∨
    (∃ low, (treeOf root).Table vm.mem low (pageToPa page)) ∨
    ∃ offset < 2 ^ 48, Walked va len offset ∧ offset < position ∧
      leafOf vm.mem root offset = (0, mappedTo perm page)
  unstarted : Walked va len (va % 2 ^ 48) → position ≤ va % 2 ^ 48 →
    count + (leafOf vm.mem root (va % 2 ^ 48)).1 = tablesFirst root va before
  started : Walked va len (va % 2 ^ 48) → va % 2 ^ 48 < position →
    tablesFirst root va before < count ∧
      (tablesFirst root va before < before.pool.free.length → ∃ page ∈ before.pool.free,
        leafOf vm.mem root (va % 2 ^ 48) = (0, mappedTo perm page))

variable {root dir : PhysAddr} {va len : Nat} {perm : Perm} {before vm : Vm} {count position : Nat}
variable {low offset page : Nat} {pool : PagePool}

theorem pteAddr_mappedTo (bound : page < 2 ^ 30) : pteAddr (mappedTo perm page) = pageToPa page := by
  rw [mappedTo, pteAddr_or _ _ (pteAddr_getPtePerm perm), pteAddr_pageToPa bound]

theorem mappedTo_injective {other : Nat} (bound : page < 2 ^ 30) (otherBound : other < 2 ^ 30)
    (same : mappedTo perm page = mappedTo perm other) : page = other := by
  apply pageToPa_injective bound otherBound
  rw [← pteAddr_mappedTo bound, same, pteAddr_mappedTo otherBound]

theorem mappedTo_ne_zero (bound : page < 2 ^ 30) : mappedTo perm page ≠ 0 := by
  intro isZero
  have named : pteAddr (mappedTo perm page) = pageToPa page := pteAddr_mappedTo bound
  rw [isZero] at named
  exact pageToPa_ne_zero bound named.symm

theorem Lent.bound (lent : Lent root before vm page) (small : vm.pool.numPages ≤ maxPages) : page < 2 ^ 30 :=
  maxPages_small (Nat.lt_of_lt_of_le lent.inPool small)

theorem SameLeaf.eq_of_ne {first second : Nat × Ptent} (same : SameLeaf first second) (nonzero : second.2 ≠ 0) :
    first = second := same.resolve_right fun blank => nonzero blank.2

theorem SameLeaf.blank {first second : Nat × Ptent} (same : SameLeaf first second) (zero : second.2 = 0) :
    first.2 = 0 := by
  rcases same with rfl | ⟨blank, _⟩
  · exact zero
  · exact blank

/-! The range in the translated bits. -/

theorem lastVa_mod (positive : 0 < len) : lastVa va len % 2 ^ 48 = (va + len - 1) % 2 ^ 48 := by
  simp only [lastVa, BitVec.toNat_sub, BitVec.toNat_add, BitVec.toNat_ofNat]
  omega

/-- An entry of the walk has an address of the range. -/
theorem Between.meets (positive : 0 < len) (between : Between 3 low va (lastVa va len) offset) :
    ∃ address, va ≤ address ∧ address < va + len ∧
      address % 2 ^ 48 / entrySpan low = offset / entrySpan low := by
  have span : entrySpan (3 + 1) = 2 ^ 48 := rfl
  obtain ⟨first, last⟩ := between
  rw [span] at first last
  rw [lastVa_mod positive] at last
  by_cases start : va % 2 ^ 48 / entrySpan low = offset / entrySpan low
  · exact ⟨va, Nat.le_refl _, by omega, start⟩
  · have later : va % 2 ^ 48 < offset / entrySpan low * entrySpan low := by
      rw [← Nat.div_lt_iff_lt_mul (entrySpan_pos low)]
      omega
    have before := Nat.mul_le_of_le_div _ _ _ last
    have address : (va + (offset / entrySpan low * entrySpan low - va % 2 ^ 48)) % 2 ^ 48 =
        offset / entrySpan low * entrySpan low := by omega
    refine ⟨va + (offset / entrySpan low * entrySpan low - va % 2 ^ 48), by omega, by omega, ?_⟩
    rw [address, entry_floor]

theorem Walked.start (walked : Walked va len offset) : Walked va len (va % 2 ^ 48) := by
  have span : entrySpan (3 + 1) = 2 ^ 48 := rfl
  rw [Walked, Between, span] at walked ⊢
  exact ⟨Nat.le_refl _, Nat.le_trans walked.1 walked.2⟩

/-- The range has no mapping. -/
def Unmapped (mem : PhysAddr → Nat → Ptent) (root : PhysAddr) (va len : Nat) : Prop :=
  ∀ address, va ≤ address → address < va + len → (leafOf mem root address).2 = 0

theorem Unmapped.walked {mem : PhysAddr → Nat → Ptent} (unmapped : Unmapped mem root va len) (positive : 0 < len)
    (inside : offset < 2 ^ 48) (walked : Walked va len offset) : (leafOf mem root offset).2 = 0 := by
  obtain ⟨address, above, below, same⟩ := Between.meets positive walked
  have blank := unmapped address above below
  rwa [← leafOf_canonical, leafOf_shared (Nat.zero_le _) same inside (Nat.mod_lt _ (by decide))] at blank

/-- The addresses of the page at an offset. -/
theorem page_span (aligned : entrySpan 0 ∣ offset) (other : Nat) :
    other / entrySpan 0 = offset / entrySpan 0 ↔ ¬ other < offset ∧ other < offset + entrySpan 0 := by
  obtain ⟨number, rfl⟩ := aligned
  rw [entrySpan_zero]
  omega

/-! What the steps of the map keep. -/

theorem MapKept.grows (kept : MapKept root va len perm before count position vm) :
    before.pool.numPages ≤ vm.pool.numPages := by
  rw [kept.took.numPages]
  exact le_sizeAfter _ _

theorem MapKept.nonblank (kept : MapKept root va len perm before count position vm) (inside : offset < 2 ^ 48)
    (walked : Walked va len offset) (below : offset < position) : (leafOf vm.mem root offset).2 ≠ 0 := by
  obtain ⟨page, leaf, lent, _⟩ := kept.mapped offset inside walked below
  rw [leaf]
  exact mappedTo_ne_zero (lent.bound kept.small)

/-- The walk moves on to the next entry of the range. -/
theorem MapKept.jump {level base there : Nat} (kept : MapKept root va len perm before count position vm)
    (gap : RangeGap vm.mem root va (lastVa va len) level dir base position there) :
    MapKept root va len perm before count there vm := by
  have back : ∀ offset, Walked va len offset → offset < there → offset < position := by
    intro offset walked below
    by_contra above
    exact gap.empty 0 (Nat.zero_le _) offset (Nat.not_lt.mp above) below walked
  have order := gap.order
  exact {
    grounded := kept.grounded
    sound := kept.sound
    small := kept.small
    took := kept.took
    counted := kept.counted
    late := kept.late.jump gap
    outside := fun offset inside out => kept.outside offset inside fun done =>
      out ⟨done.1, Nat.lt_of_lt_of_le done.2 order⟩
    mapped := fun offset inside walked below => kept.mapped offset inside walked (back offset walked below)
    apart := fun offset inside walked below other otherInside otherWalked otherBelow =>
      kept.apart offset inside walked (back offset walked below) other otherInside otherWalked
        (back other otherWalked otherBelow)
    refs := kept.refs
    given := fun page unused => (kept.given page unused).imp_right fun used =>
      used.imp_right fun ⟨offset, inside, walked, below, leaf⟩ =>
        ⟨offset, inside, walked, Nat.lt_of_lt_of_le below order, leaf⟩
    unstarted := fun walked above => kept.unstarted walked (Nat.le_trans order above)
    started := fun walked below => kept.started walked (back _ walked below) }

/-- The page that the walk comes to is not mapped yet. -/
theorem MapKept.blank (kept : MapKept root va len perm before count offset vm)
    (unmapped : Unmapped before.mem root va len) (positive : 0 < len) (inside : offset < 2 ^ 48)
    (walked : Walked va len offset) : (leafOf vm.mem root offset).2 = 0 :=
  (kept.outside offset inside fun done => Nat.lt_irrefl _ done.2).blank (unmapped.walked positive inside walked)

theorem Walked.waits {mem : PhysAddr → Nat → Ptent} (walked : Walked va len offset) (inside : offset < 2 ^ 48)
    (blank : (leafOf mem root offset).2 = 0) :
    (0, offset / entrySpan 0) ∈ unmet mem root va (lastVa va len) :=
  (unmet_iff inside).mpr ⟨Nat.zero_le _, walked, Nat.zero_le _, blank⟩

/-- An entry without a table waits for one. -/
theorem Grounded.waits (grounded : Grounded entryBuilt [treeOf root] vm) (inside : offset < 2 ^ 48)
    (leads : tableFor vm.mem root (low + 1) offset = some dir)
    (between : Between 3 (low + 1) va (lastVa va len) offset)
    (notBig : bigSlot (low + 1) .none (vm.mem dir (pdx (low + 1) offset)) = false)
    (absent : ptePresent (vm.mem dir (pdx (low + 1) offset)) = false) :
    (low + 1, offset / entrySpan (low + 1)) ∈ unmet vm.mem root va (lastVa va len) := by
  have ends := leafOf_end leads rfl inside inside (by simp [tableOf, absent])
  rw [unmet_iff inside, ends, grounded.newTable_empty leads absent notBig]
  exact ⟨tableAt_le leads, between, Nat.le_refl _, rfl⟩

/-- A page taken from the pool of the map. -/
structure NextPage (before : Vm) (count : Nat) (vm : Vm) (page : Nat) (pool : PagePool) : Prop where
  taken : Taken vm.pool page pool
  sound : PoolSound pool
  took : Took before.pool (count + 1) pool
  listed : page ∈ before.pool.free ↔ count < before.pool.free.length
  unused : refOf before.pool page = 0
  fresh : refOf vm.pool page = 0

theorem MapKept.alloc (kept : MapKept root va len perm before count position vm) (sound : PoolSound before.pool)
    (ran : pageAlloc vm.pool = (some (some page), pool)) : NextPage before count vm page pool := by
  obtain ⟨after, took⟩ := pageAlloc_sound kept.sound
  have list := kept.sound.freeList
  have counts := kept.took.alloc sound.freeList list (show (pageAlloc vm.pool).1 = some (some page) by rw [ran])
  rw [ran] at after took counts
  have taken : Taken vm.pool page pool := by
    rcases pageAlloc_spec list with ⟨other, result, taken⟩ | refused
    · rw [ran] at result taken
      obtain rfl : page = other := by simpa using result
      exact taken
    · rw [ran] at refused
      simp at refused
  obtain ⟨other, result, fresh, _⟩ := took.resolve_left (by simp)
  obtain rfl : page = other := by simpa using result
  refine ⟨taken, after, counts.1, counts.2, ?_, fresh⟩
  by_contra used
  have same := kept.refs page (by omega)
  omega

/-- The pool does not outgrow its table unless the demand does. -/
theorem MapKept.room (kept : MapKept root va len perm before count position vm) (next : NextPage before count vm page pool)
    {entry : Nat × Nat} (waits : entry ∈ unmet vm.mem root va (lastVa va len)) :
    pool.numPages ≤ sizeAfter before.pool (mapDemand root va len before) := by
  have some_ := Finset.card_pos.mpr ⟨entry, waits⟩
  have counted := kept.counted
  rw [next.took.numPages]
  exact sizeAfter_mono _ (by omega)

/-- What is lent stays so when another page is taken. -/
theorem Lent.next {mem : PhysAddr → Nat → Ptent} {other : Nat} (lent : Lent root before vm other)
    (next : NextPage before count vm page pool)
    (apart : copies mem [treeOf root] (pageToPa other) = copies vm.mem [treeOf root] (pageToPa other)) :
    other ≠ page ∧ Lent root before ⟨pool, mem⟩ other := by
  have different : other ≠ page := by
    rintro rfl
    have once := lent.once
    rw [next.fresh] at once
    exact absurd once (by simp)
  refine ⟨different, Nat.lt_of_lt_of_le lent.inPool next.taken.grows, lent.unused, ?_, ?_⟩
  · rw [next.taken.refs, if_neg different, lent.once]
  · rw [apart, lent.apart]

section Install

variable (kept : MapKept root va len perm before count offset vm) (next : NextPage before count vm page pool)
variable (small : pool.numPages ≤ maxPages) (leads : tableFor vm.mem root (low + 1) offset = some dir)
variable (absent : ptePresent (vm.mem dir (pdx (low + 1) offset)) = false)

include kept next small leads absent

theorem MapKept.newTable_copies {other : Nat} (bound : other < 2 ^ 30) (different : other ≠ page) :
    copies (installed vm.mem dir (pdx (low + 1) offset) (pageToPa page)) [treeOf root] (pageToPa other) =
      copies vm.mem [treeOf root] (pageToPa other) := by
  have pageBound := maxPages_small (Nat.lt_of_lt_of_le next.taken.inPool small)
  have apart : pageToPa page ≠ pageToPa other := fun same =>
    different (pageToPa_injective pageBound bound same).symm
  rw [copies, copies, kept.grounded.forest.total_installed (by simp) (tableFor_table leads) (pdx_bound _ _)
    (by simp [tableOf, absent]) (kept.grounded.unused next.taken small) (next.taken.aligned small) rfl,
    if_neg apart, Nat.add_zero]

theorem MapKept.newTable_table :
    (treeOf root).Table (installed vm.mem dir (pdx (low + 1) offset) (pageToPa page)) low (pageToPa page) :=
  kept.grounded.forest.installed_new (by simp) (tableFor_table leads) (pdx_bound _ _)
    (by simp [tableOf, absent]) (kept.grounded.unused next.taken small) (next.taken.aligned small)

/-- A table is entered. -/
theorem MapKept.newTable (inside : offset < 2 ^ 48)
    (between : Between 3 (low + 1) va (lastVa va len) offset)
    (notBig : bigSlot (low + 1) .none (vm.mem dir (pdx (low + 1) offset)) = false) :
    MapKept root va len perm before (count + 1) offset
      (installTable { vm with pool := pool } ⟨dir, pdx (low + 1) offset⟩ (pageToPa page)) := by
  have grounded := kept.grounded
  have taken := next.taken
  have leaves := grounded.newTable_leaf taken small leads absent notBig
  have pointers := grounded.newTable_pointers taken small leads absent
  have demand : unmet (installed vm.mem dir (pdx (low + 1) offset) (pageToPa page)) root va (lastVa va len) =
      (unmet vm.mem root va (lastVa va len)).erase (low + 1, offset / entrySpan (low + 1)) :=
    grounded.newTable_unmet taken small leads inside notBig absent
  have mappedLeaf : ∀ other < 2 ^ 48, Walked va len other → other < offset →
      leafOf (installed vm.mem dir (pdx (low + 1) offset) (pageToPa page)) root other =
        leafOf vm.mem root other := fun other otherInside walked below =>
    (leaves other).eq_of_ne (kept.nonblank otherInside walked below)
  have waits := grounded.waits inside leads between notBig absent
  refine ⟨grounded.newTable taken small leads absent, next.sound, small, next.took, ?_, ?_, ?_, ?_, ?_, ?_, ?_,
    ?_, ?_⟩
  · have counted := kept.counted
    have fewer := Finset.card_erase_add_one waits
    rw [installTable_mem, demand]
    omega
  · intro level number member
    rw [installTable_mem, demand, Finset.mem_erase] at member
    exact kept.late level number member.2
  · intro other otherInside out
    exact (leaves other).trans (kept.outside other otherInside out)
  · intro other otherInside walked below
    obtain ⟨number, leaf, lent, early⟩ := kept.mapped other otherInside walked below
    have bound := lent.bound kept.small
    have different : number ≠ page := by
      rintro rfl
      have once := lent.once
      rw [next.fresh] at once
      exact absurd once (by simp)
    exact ⟨number, (mappedLeaf other otherInside walked below).trans leaf,
      (lent.next next (kept.newTable_copies next small leads absent bound different)).2, early⟩
  · intro first firstInside firstWalked firstBelow second secondInside secondWalked secondBelow same
    rw [installTable_mem, mappedLeaf first firstInside firstWalked firstBelow,
      mappedLeaf second secondInside secondWalked secondBelow] at same
    exact kept.apart first firstInside firstWalked firstBelow second secondInside secondWalked secondBelow same
  · intro other used
    have same := kept.refs other used
    have different : other ≠ page := by
      rintro rfl
      rw [next.fresh] at same
      omega
    show refOf pool other = _
    rw [taken.refs, if_neg different, same, Nat.add_zero]
  · intro other unused
    by_cases isPage : other = page
    · subst isPage
      exact Or.inr (Or.inl ⟨low, kept.newTable_table next small leads absent⟩)
    · rcases kept.given other unused with free | ⟨level, table⟩ | ⟨at_, atInside, walked, below, leaf⟩
      · refine Or.inl ?_
        show refOf pool other = 0
        rw [taken.refs, if_neg isPage, free]
      · exact Or.inr (Or.inl ⟨level, pointers.table (Nat.zero_le level) table⟩)
      · exact Or.inr (Or.inr ⟨at_, atInside, walked, below, (mappedLeaf at_ atInside walked below).trans leaf⟩)
  · intro walked above
    have count_ := kept.unstarted walked above
    have startInside : va % 2 ^ 48 < 2 ^ 48 := Nat.mod_lt _ (by decide)
    have same : va % 2 ^ 48 / entrySpan (low + 1) = offset / entrySpan (low + 1) :=
      Nat.le_antisymm between.1 (Nat.div_le_div_right above)
    have ends := leafOf_end leads same inside startInside (by simp [tableOf, absent])
    rw [ends] at count_
    rw [installTable_mem, grounded.newTable_at taken small leads inside startInside, if_pos same]
    omega
  · intro walked below
    obtain ⟨later, early⟩ := kept.started walked below
    refine ⟨Nat.lt_succ_of_lt later, fun short => ?_⟩
    obtain ⟨number, listed, leaf⟩ := early short
    exact ⟨number, listed, (mappedLeaf _ (Nat.mod_lt _ (by decide)) walked below).trans leaf⟩

end Install

/-- A page is mapped. -/
theorem MapKept.mapPage (kept : MapKept root va len perm before count offset vm)
    (next : NextPage before count vm page pool) (small : pool.numPages ≤ maxPages)
    (unmapped : Unmapped before.mem root va len) (positive : 0 < len)
    (leads : tableFor vm.mem root 0 offset = some dir) (inside : offset < 2 ^ 48)
    (walked : Walked va len offset) (aligned : entrySpan 0 ∣ offset) :
    MapKept root va len perm before (count + 1) (offset + entrySpan 0)
      (Vm.setPte { vm with pool := pool } ⟨dir, pdx 0 offset⟩ (mappedTo perm page)) := by
  have grounded := kept.grounded
  have taken := next.taken
  have table := tableFor_table leads
  have startInside : va % 2 ^ 48 < 2 ^ 48 := Nat.mod_lt _ (by decide)
  have bound := maxPages_small (Nat.lt_of_lt_of_le taken.inPool small)
  have nonzero : mappedTo perm page ≠ 0 := mappedTo_ne_zero bound
  have blank := kept.blank unmapped positive inside walked
  have demand : unmet (setWord vm.mem dir (pdx 0 offset) (mappedTo perm page)) root va (lastVa va len) =
      (unmet vm.mem root va (lastVa va len)).erase (0, offset / entrySpan 0) :=
    grounded.store_unmet leads inside blank nonzero
  have waits := walked.waits inside blank
  have stored : ∀ other < 2 ^ 48, leafOf (setWord vm.mem dir (pdx 0 offset) (mappedTo perm page)) root other =
      if other / entrySpan 0 = offset / entrySpan 0 then (0, mappedTo perm page)
      else leafOf vm.mem root other :=
    fun other otherInside => grounded.store_leaf leads inside otherInside (by simp)
  have pos := entrySpan_pos 0
  have samePage : ∀ other, other / entrySpan 0 = offset / entrySpan 0 ↔
      ¬ other < offset ∧ other < offset + entrySpan 0 := page_span aligned
  have old : ∀ other, other < 2 ^ 48 → other < offset →
      leafOf (setWord vm.mem dir (pdx 0 offset) (mappedTo perm page)) root other = leafOf vm.mem root other := by
    intro other otherInside below
    rw [stored other otherInside, if_neg fun same => ((samePage other).mp same).1 below]
  have new : ∀ other, other < 2 ^ 48 → ¬ other < offset → other < offset + entrySpan 0 →
      leafOf (setWord vm.mem dir (pdx 0 offset) (mappedTo perm page)) root other = (0, mappedTo perm page) := by
    intro other otherInside above below
    rw [stored other otherInside, if_pos ((samePage other).mpr ⟨above, below⟩)]
  have different : ∀ other < 2 ^ 48, Walked va len other → other < offset →
      leafOf vm.mem root other ≠ (0, mappedTo perm page) := by
    intro other otherInside otherWalked below same
    obtain ⟨number, leaf, lent, _⟩ := kept.mapped other otherInside otherWalked below
    rw [leaf] at same
    obtain rfl := mappedTo_injective (lent.bound kept.small) bound (Prod.mk.inj same).2
    have once := lent.once
    rw [next.fresh] at once
    exact absurd once (by simp)
  -- the page at which the range starts is the first one, or mapped already
  have first : va % 2 ^ 48 < offset + entrySpan 0 := by
    have lowest := walked.1
    rw [show entrySpan (3 + 1) = 2 ^ 48 from rfl] at lowest
    obtain ⟨number, rfl⟩ := aligned
    rw [entrySpan_zero] at lowest ⊢
    omega
  have earlier : ¬ va % 2 ^ 48 < offset → count = tablesFirst root va before := by
    intro above
    have begun := kept.unstarted walked.start (Nat.not_lt.mp above)
    have level : (leafOf vm.mem root (va % 2 ^ 48)).1 = 0 := by
      rw [leafOf_shared (Nat.zero_le _) ((samePage _).mpr ⟨above, first⟩) inside startInside]
      exact Nat.le_zero.mp (leafOf_le leads)
    rw [level] at begun
    exact begun
  have reached : tablesFirst root va before ≤ count := by
    by_cases below : va % 2 ^ 48 < offset
    · exact Nat.le_of_lt (kept.started walked.start below).1
    · exact Nat.le_of_eq (earlier below).symm
  refine ⟨?_, next.sound, small, next.took, ?_, ?_, ?_, ?_, ?_, ?_, ?_, ?_, ?_⟩
  · exact grounded.storeLeaf table (pdx_bound _ _) (by simp) (by simp) taken.list
      fun other otherSmall free => grounded.fresh other otherSmall (taken.still free).2
  · have counted := kept.counted
    have fewer := Finset.card_erase_add_one waits
    change count + 1 + (unmet (setWord vm.mem dir (pdx 0 offset) (mappedTo perm page)) root va
      (lastVa va len)).card = _
    rw [demand]
    omega
  · exact grounded.store_late leads inside blank nonzero aligned kept.late
  · intro other otherInside out
    change SameLeaf (leafOf (setWord _ _ _ _) _ _) _
    rw [stored other otherInside, if_neg]
    · exact kept.outside other otherInside fun done => out ⟨done.1, by omega⟩
    · intro same
      exact out ⟨(between_same same).mpr walked, ((samePage other).mp same).2⟩
  · intro other otherInside otherWalked below
    change ∃ number, leafOf (setWord _ _ _ _) _ _ = _ ∧ _
    by_cases earlier : other < offset
    · obtain ⟨number, leaf, lent, early⟩ := kept.mapped other otherInside otherWalked earlier
      refine ⟨number, (old other otherInside earlier).trans leaf, ?_, early⟩
      exact (lent.next next (copies_setWord_leaf grounded.forest (by simp) table (pdx_bound _ _) _ _)).2
    · refine ⟨page, new other otherInside earlier below, ⟨taken.inPool, next.unused, ?_, ?_⟩, fun listed => ?_⟩
      · show refOf pool page = 1
        rw [taken.refs, next.fresh, if_pos rfl]
      · show copies (setWord _ _ _ _) _ _ = 0
        rw [copies_setWord_leaf grounded.forest (by simp) table (pdx_bound _ _)]
        exact grounded.unused taken small
      · exact Nat.lt_of_le_of_lt reached (next.listed.mp listed)
  · intro one oneInside oneWalked oneBelow two twoInside twoWalked twoBelow same
    change leafOf (setWord _ _ _ _) _ _ = leafOf (setWord _ _ _ _) _ _ at same
    by_cases oneOld : one < offset
    · rw [old one oneInside oneOld] at same
      by_cases twoOld : two < offset
      · rw [old two twoInside twoOld] at same
        exact kept.apart one oneInside oneWalked oneOld two twoInside twoWalked twoOld same
      · rw [new two twoInside twoOld twoBelow] at same
        exact absurd same (different one oneInside oneWalked oneOld)
    · rw [new one oneInside oneOld oneBelow] at same
      by_cases twoOld : two < offset
      · rw [old two twoInside twoOld] at same
        exact absurd same.symm (different two twoInside twoWalked twoOld)
      · rw [(samePage one).mpr ⟨oneOld, oneBelow⟩, (samePage two).mpr ⟨twoOld, twoBelow⟩]
  · intro other used
    have same := kept.refs other used
    have apart : other ≠ page := by
      rintro rfl
      rw [next.fresh] at same
      omega
    show refOf pool other = _
    rw [taken.refs, if_neg apart, same, Nat.add_zero]
  · intro other unused
    by_cases isPage : other = page
    · subst isPage
      exact Or.inr (Or.inr ⟨offset, inside, walked, by omega, new offset inside (Nat.lt_irrefl _) (by omega)⟩)
    · rcases kept.given other unused with free | ⟨level, inTable⟩ | ⟨at_, atInside, atWalked, below, leaf⟩
      · refine Or.inl ?_
        show refOf pool other = 0
        rw [taken.refs, if_neg isPage, free]
      · exact Or.inr (Or.inl ⟨level, (grounded.store_pointers table _ _).table (Nat.zero_le level) inTable⟩)
      · exact Or.inr (Or.inr ⟨at_, atInside, atWalked, by omega, (old at_ atInside below).trans leaf⟩)
  · intro _ above
    omega
  · intro startWalked below
    change _ ∧ (_ → ∃ number ∈ _, leafOf (setWord _ _ _ _) _ _ = _)
    by_cases begun : va % 2 ^ 48 < offset
    · obtain ⟨later, early⟩ := kept.started startWalked begun
      refine ⟨by omega, fun short => ?_⟩
      obtain ⟨number, listed, leaf⟩ := early short
      exact ⟨number, listed, (old _ startInside begun).trans leaf⟩
    · have exact_ := earlier begun
      refine ⟨by omega, fun short => ⟨page, next.listed.mpr (by omega), new _ startInside begun below⟩⟩

/-! The walk. -/

/-- The pool has outgrown its table, as the demand told. -/
def mapLost (root : PhysAddr) (va len : Nat) (before : Vm) (pool : PagePool) : Prop :=
  outgrown maxPages pool ∧ maxPages < sizeAfter before.pool (mapDemand root va len before)

theorem mapPagesHelper_lost {pte : Ptent} (slot : PteRef) (at_ : Nat) (vm : Vm)
    (lost : mapLost root va len before vm.pool) :
    mapLost root va len before (mapPagesHelper pte slot at_ vm).2.pool := by
  have more := allocPage_outgrown vm lost.1
  rw [allocPage_pool] at more
  rw [mapPagesHelper_pool]
  exact ⟨more, lost.2⟩

/-- No big page lies in the range. -/
theorem MapKept.no_big (kept : MapKept root va len perm before count position vm)
    (unmapped : Unmapped before.mem root va len) (positive : 0 < len) (inside : offset < 2 ^ 48)
    (leads : tableFor vm.mem root (low + 1) offset = some dir)
    (between : Between 3 (low + 1) va (lastVa va len) offset) :
    bigSlot (low + 1) .none (vm.mem dir (pdx (low + 1) offset)) = false := by
  by_contra isBig
  have big : bigSlot (low + 1) .none (vm.mem dir (pdx (low + 1) offset)) = true := by simpa using isBig
  obtain ⟨address, above, below, same⟩ := between.meets positive
  have addressInside : address % 2 ^ 48 < 2 ^ 48 := Nat.mod_lt _ (by decide)
  have leaf := leafOf_end leads same inside addressInside (by rw [tableOf, if_pos big])
  by_cases done : Walked va len (address % 2 ^ 48) ∧ address % 2 ^ 48 < position
  · obtain ⟨page, leafAgain, _⟩ := kept.mapped _ addressInside done.1 done.2
    rw [leaf] at leafAgain
    exact absurd (Prod.mk.inj leafAgain).1 (by simp)
  · have blank := (kept.outside _ addressInside done).blank
      (by rw [leafOf_canonical]; exact unmapped address above below)
    rw [leaf] at blank
    exact bigSlot_ne_zero big blank

theorem map_rule (perm : Perm) (sound : PoolSound before.pool) (unmapped : Unmapped before.mem root va len)
    (positive : 0 < len) : OrderRule (mapLost root va len before)
      (fun position vm => ∃ count, MapKept root va len perm before count position vm) root va (lastVa va len)
      (mapPagesHelper (getPtePerm perm)) .normal where
  plain := Or.inr rfl
  cbLost := mapPagesHelper_lost
  allocLost := Or.inr fun vm lost => ⟨allocPage_outgrown vm lost.1, lost.2⟩
  jump := fun _ _ _ _ _ _ ⟨count, kept⟩ gap => ⟨count, kept.jump gap⟩
  visit := by
    intro vm low dir offset ⟨count, kept⟩ inside leads between aligned visited
    cases low with
    | succ low =>
        rw [visitsWord, if_neg (by omega), bigSlot_normal,
          kept.no_big unmapped positive inside leads between] at visited
        exact absurd visited (by simp)
    | zero =>
        unfold mapPagesHelper
        split
        · rename_i page pool ran
          have next := kept.alloc sound ran
          have room := kept.room next
            (Walked.waits between inside (kept.blank unmapped positive inside between))
          intro _
          by_cases small : pool.numPages ≤ maxPages
          · exact Or.inr ⟨kept.grounded.store_pointers (tableFor_table leads) _ _, count + 1,
              kept.mapPage next small unmapped positive leads inside between aligned⟩
          · exact Or.inl ⟨Nat.not_le.mp small, Nat.lt_of_lt_of_le (Nat.not_le.mp small) room⟩
        · intro zero
          exact absurd zero (by simp [enomem])
        · intro zero
          exact absurd zero (by simp)
  skip := fun isNone => absurd isNone (by simp)
  install := by
    refine Or.inr ?_
    intro vm low dir offset page next ⟨count, kept⟩ inside leads between aligned notBig absent allocated
    unfold allocPage at allocated
    split at allocated
    · rename_i number pool ran
      rw [Prod.mk.injEq, Option.some.injEq, Option.some.injEq] at allocated
      obtain ⟨rfl, rfl⟩ := allocated
      have taken := kept.alloc sound ran
      have room := kept.room taken (kept.grounded.waits inside leads between notBig absent)
      intro _
      by_cases small : pool.numPages ≤ maxPages
      · exact Or.inr ⟨kept.grounded.newTable_pointers taken.taken small leads absent, count + 1,
          kept.newTable taken small leads absent inside between notBig⟩
      · exact Or.inl ⟨Nat.not_le.mp small, Nat.lt_of_lt_of_le (Nat.not_le.mp small) room⟩
    · simp at allocated
    · simp at allocated

/-- Nothing is done yet. -/
theorem mapKept_start (perm : Perm) (built : RootBuilt before root) (sound : PoolSound before.pool)
    (small : before.pool.numPages ≤ maxPages) : MapKept root va len perm before 0 0 before where
  grounded := built
  sound := sound
  small := small
  took := .none before.pool
  counted := Nat.zero_add _
  late := .start
  outside := fun _ _ _ => Or.inl rfl
  mapped := fun _ _ _ below => absurd below (Nat.not_lt_zero _)
  apart := fun _ _ _ below => absurd below (Nat.not_lt_zero _)
  refs := fun _ _ => rfl
  given := fun _ unused => Or.inl unused
  unstarted := by
    intro _ _
    rw [Nat.zero_add, leafOf_canonical]
    rfl
  started := fun _ below => absurd below (Nat.not_lt_zero _)

/-- A map that returns 0 has done all of its range. -/
theorem vmMapPages_kept (perm : Perm) (built : RootBuilt before root) (sound : PoolSound before.pool)
    (unmapped : Unmapped before.mem root va len) (positive : 0 < len)
    (returns : (vmMapPages root va len perm before).1 = some 0) :
    mapLost root va len before (vmMapPages root va len perm before).2.pool ∨
      ∃ count, MapKept root va len perm before count (2 ^ 48) (vmMapPages root va len perm before).2 := by
  have rule := map_rule perm sound unmapped positive
  unfold vmMapPages at returns ⊢
  split at returns
  · simp [einval] at returns
  · rename_i allowed
    rw [if_neg allowed]
    by_cases small : before.pool.numPages ≤ maxPages
    · have walked := rule.pageWalk 3 root va (lastVa va len) 0 before ⟨0, mapKept_start perm built sound small⟩
        (orderedWalk_top before.mem root va (lastVa va len)) returns
      have whole : 0 + entrySpan (3 + 1) = 2 ^ 48 := Nat.zero_add _
      rw [whole] at walked
      exact walked.imp_right And.right
    · refine Or.inl (rule.lost_walk 3 root va (lastVa va len) before ⟨Nat.not_le.mp small, ?_⟩)
      exact Nat.lt_of_lt_of_le (Nat.not_le.mp small) (le_sizeAfter _ _)

end RdmaPaging
