import RdmaPaging.VmMapFresh

/-!
`dune_vm_unmap` after `dune_vm_map_pages` of the same range. The walk comes to every page that was
mapped, clears its entry and puts the page back. From 2 GB on no page is taken for one of the pool,
and what was mapped stays in use.
-/

namespace RdmaPaging

open RadixTree

/-- What `dune_vm_map_pages` maps in the range: pages that were not in use, each of them once. -/
structure MapsFresh (root : PhysAddr) (va len : Nat) (before mapped : Vm) : Prop where
  fresh : ∀ address, va ≤ address → address < va + len → (leafOf mapped.mem root address).2 ≠ 0 →
    ∃ page < mapped.pool.numPages, pteAddr (leafOf mapped.mem root address).2 = pageToPa page ∧
      refOf before.pool page = 0 ∧ refOf mapped.pool page = 1
  distinct : ∀ first second, va ≤ first → first < va + len → va ≤ second → second < va + len →
    (leafOf mapped.mem root first).2 ≠ 0 → (leafOf mapped.mem root second).2 ≠ 0 →
    pteAddr (leafOf mapped.mem root first).2 = pteAddr (leafOf mapped.mem root second).2 →
    first % 2 ^ 48 / 2 ^ pgshift = second % 2 ^ 48 / 2 ^ pgshift
  complete : va / 2 ^ 48 = (va + len - 1) / 2 ^ 48 → ∀ address, va ≤ address → address < va + len →
    (leafOf mapped.mem root address).2 ≠ 0

/-- What `dune_vm_unmap` leaves of it: the translation and the pages of before. -/
structure Undone (root : PhysAddr) (before after : Vm) : Prop where
  translates : ∀ address, translate after.mem root address = translate before.mem root address
  refs : ∀ page, 1 ≤ refOf before.pool page → refOf after.pool page = refOf before.pool page
  free : ∀ page ∈ before.pool.free, page ∈ after.pool.free ∨
    ∃ low, (treeOf root).Table after.mem low (pageToPa page)

/-- The map keeps to the table of pages and maps fresh pages, and the unmap takes it back. -/
structure MapUnmapInverse (root : PhysAddr) (va len : Nat) (perm : Perm) (before : Vm) : Prop where
  window : (vmMapPages root va len perm before).2.pool.numPages ≤ maxPages
  maps : MapsFresh root va len before (vmMapPages root va len perm before).2
  undone : ∃ after, vmUnmap root va len (vmMapPages root va len perm before).2 = (some (), after) ∧
    Undone root before after

/-- A page of the free list comes to be mapped, and the pool to have 2 GB. -/
def KeepsPage (root : PhysAddr) (va len : Nat) (before : Vm) : Prop :=
  Walked va len (va % 2 ^ 48) ∧ 2 ^ 19 ≤ sizeAfter before.pool (mapDemand root va len before) ∧
    tablesFirst root va before < before.pool.free.length

/-- The state when the entries below `position` are cleared. -/
structure UnmapKept (root : PhysAddr) (va len : Nat) (perm : Perm) (mapped : Vm) (position : Nat) (vm : Vm) :
    Prop where
  grounded : Grounded entryBuilt [treeOf root] vm
  sound : PoolSound vm.pool
  pages : vm.pool.numPages = mapped.pool.numPages
  pointers : PointersFrom root 0 mapped.mem vm.mem
  tables : ∀ table, copies vm.mem [treeOf root] table = copies mapped.mem [treeOf root] table
  cleared : ∀ offset < 2 ^ 48, Walked va len offset → offset < position → leafOf vm.mem root offset = (0, 0)
  left : ∀ offset < 2 ^ 48, ¬ (Walked va len offset ∧ offset < position) →
    leafOf vm.mem root offset = leafOf mapped.mem root offset
  put : mapped.pool.numPages < 2 ^ 19 → ∀ offset < 2 ^ 48, Walked va len offset → offset < position →
    ∀ page < mapped.pool.numPages, leafOf mapped.mem root offset = (0, mappedTo perm page) →
      refOf vm.pool page = 0
  held : ∀ page, (mapped.pool.numPages < 2 ^ 19 → ∀ offset < 2 ^ 48, Walked va len offset →
    offset < position → leafOf mapped.mem root offset ≠ (0, mappedTo perm page)) →
      refOf vm.pool page = refOf mapped.pool page

variable {root dir : PhysAddr} {va len : Nat} {perm : Perm} {before mapped vm : Vm} {count position : Nat}
variable {low offset page : Nat} {pool : PagePool} {cb : PageWalkCb}

/-! A walk whose function returns 0 goes to its end. -/

theorem walkLoop_returns {ready : Vm → Prop} {body : Nat → Vm → Option Int × Vm}
    (returns : ∀ index vm, ready vm → (body index vm).1 = some 0 ∧ ready (body index vm).2)
    (indices : List Nat) (vm : Vm) (isReady : ready vm) :
    (walkLoop body indices vm).1 = some 0 ∧ ready (walkLoop body indices vm).2 := by
  induction indices generalizing vm with
  | nil => exact ⟨rfl, isReady⟩
  | cons index rest ih =>
      have step := returns index vm isReady
      simp only [walkLoop]
      split
      · rename_i next stepped
        rw [stepped] at step
        exact ih next step.2
      · rename_i notZero
        exact (notZero _ (Prod.ext step.1 rfl)).elim

theorem pageWalk_returns {ready : Vm → Prop}
    (returns : ∀ slot at_ vm, ready vm → (cb slot at_ vm).1 = some 0 ∧ ready (cb slot at_ vm).2)
    (level : Nat) (dir : PhysAddr) (startVa endVa : Nat) (vm : Vm) (isReady : ready vm) :
    (pageWalk cb .none level dir startVa endVa vm).1 = some 0 ∧
      ready (pageWalk cb .none level dir startVa endVa vm).2 := by
  induction level generalizing dir startVa endVa vm with
  | zero =>
      refine walkLoop_returns (fun index vm isReady => ?_) _ vm isReady
      unfold walkLeaf
      split
      · exact returns _ _ vm isReady
      · exact ⟨rfl, isReady⟩
  | succ level ih =>
      refine walkLoop_returns (fun index vm isReady => ?_) _ vm isReady
      unfold walkEntry
      dsimp only
      split
      · exact returns _ _ vm isReady
      · split
        · exact ih _ _ _ vm isReady
        · rw [if_pos rfl]
          exact ⟨rfl, isReady⟩

theorem freeHelper_returns (slot : PteRef) (at_ : Nat) (vm : Vm) (small : vm.pool.numPages ≤ maxPages) :
    (freeHelper slot at_ vm).1 = some 0 ∧ (freeHelper slot at_ vm).2.pool.numPages ≤ maxPages := by
  unfold freeHelper
  dsimp only
  split
  · rename_i fromPool
    obtain ⟨page, inPool, _, isPage⟩ := pageIsFromPool_page small fromPool
    rw [isPage, pagePut, if_pos inPool]
    exact ⟨rfl, small⟩
  · exact ⟨rfl, small⟩

/-! What the steps of the unmap keep. -/

theorem UnmapKept.extend {there : Nat} (kept : UnmapKept root va len perm mapped position vm)
    (order : position ≤ there)
    (gap : ∀ offset < 2 ^ 48, position ≤ offset → offset < there → ¬ Walked va len offset) :
    UnmapKept root va len perm mapped there vm := by
  have back : ∀ offset < 2 ^ 48, Walked va len offset → offset < there → offset < position := by
    intro offset inside walked below
    by_contra above
    exact gap offset inside (Nat.not_lt.mp above) below walked
  exact {
    grounded := kept.grounded
    sound := kept.sound
    pages := kept.pages
    pointers := kept.pointers
    tables := kept.tables
    cleared := fun offset inside walked below => kept.cleared offset inside walked (back offset inside walked below)
    left := fun offset inside out => kept.left offset inside fun done =>
      out ⟨done.1, Nat.lt_of_lt_of_le done.2 order⟩
    put := fun small offset inside walked below =>
      kept.put small offset inside walked (back offset inside walked below)
    held := fun page unmet => kept.held page fun small offset inside walked below =>
      unmet small offset inside walked (Nat.lt_of_lt_of_le below order) }

/-- An entry is cleared, and its page put back while the pool knows its pages. -/
theorem UnmapKept.store (kept : UnmapKept root va len perm mapped offset vm)
    (done : MapKept root va len perm before count (2 ^ 48) mapped)
    (leads : tableFor vm.mem root 0 offset = some dir) (inside : offset < 2 ^ 48)
    (walked : Walked va len offset) (aligned : entrySpan 0 ∣ offset)
    (leaf : leafOf mapped.mem root offset = (0, mappedTo perm page)) (lent : Lent root before mapped page)
    (sound : PoolSound pool) (pages : pool.numPages = vm.pool.numPages)
    (refs : ∀ other, refOf pool other =
      if mapped.pool.numPages < 2 ^ 19 ∧ other = page then 0 else refOf vm.pool other) :
    UnmapKept root va len perm mapped (offset + entrySpan 0)
      (Vm.setPte { vm with pool := pool } ⟨dir, pdx 0 offset⟩ 0) := by
  have grounded := kept.grounded
  have table := tableFor_table leads
  have pos := entrySpan_pos 0
  have stored : ∀ other < 2 ^ 48, leafOf (setWord vm.mem dir (pdx 0 offset) 0) root other =
      if other / entrySpan 0 = offset / entrySpan 0 then (0, 0) else leafOf vm.mem root other :=
    fun other otherInside => grounded.store_leaf leads inside otherInside (by simp)
  have samePage : ∀ other, other / entrySpan 0 = offset / entrySpan 0 ↔
      ¬ other < offset ∧ other < offset + entrySpan 0 := page_span aligned
  have copiesSame : ∀ other, copies (setWord vm.mem dir (pdx 0 offset) 0) [treeOf root] other =
      copies vm.mem [treeOf root] other :=
    copies_setWord_leaf grounded.forest (by simp) table (pdx_bound _ _) _
  have free : ∀ other ∈ pool.free, refOf pool other = 0 := by
    intro other listed
    rw [refOf, ((sound.exact other).mp listed).2, ite_self]
  refine ⟨?_, sound, pages.trans kept.pages, kept.pointers.trans (grounded.store_pointers table _ _),
    fun other => (copiesSame other).trans (kept.tables other), ?_, ?_, ?_, ?_⟩
  · refine grounded.storeLeaf table (pdx_bound _ _) (by simp) (by simp) sound.freeList fun other small able => ?_
    rcases able with listed | outside
    · have unused := free other listed
      rw [refs] at unused
      split at unused
      · rename_i isPage
        rw [kept.tables, isPage.2]
        exact lent.apart
      · refine grounded.fresh other small (Or.inl ((kept.sound.exact other).mpr ?_))
        have inPool := ((sound.exact other).mp listed).1
        rw [pages] at inPool
        rw [refOf, if_pos inPool] at unused
        exact ⟨inPool, unused⟩
    · exact grounded.fresh other small (Or.inr (pages ▸ outside))
  · intro other otherInside otherWalked below
    change leafOf (setWord _ _ _ _) _ _ = _
    rw [stored other otherInside]
    split
    · rfl
    · rename_i apart
      refine kept.cleared other otherInside otherWalked ?_
      by_contra above
      exact apart ((samePage other).mpr ⟨above, below⟩)
  · intro other otherInside out
    change leafOf (setWord _ _ _ _) _ _ = _
    rw [stored other otherInside, if_neg]
    · exact kept.left other otherInside fun early => out ⟨early.1, by omega⟩
    · intro same
      exact out ⟨(between_same same).mpr walked, ((samePage other).mp same).2⟩
  · intro small other otherInside otherWalked below number inPool otherLeaf
    show refOf pool number = 0
    rw [refs]
    split
    · rfl
    · rename_i notPage
      refine kept.put small other otherInside otherWalked ?_ number inPool otherLeaf
      by_contra above
      have sameLeaf : leafOf mapped.mem root other = leafOf mapped.mem root offset :=
        leafOf_shared (Nat.zero_le _) ((samePage other).mpr ⟨above, below⟩) inside otherInside
      rw [otherLeaf, leaf] at sameLeaf
      apply notPage
      refine ⟨small, ?_⟩
      exact mappedTo_injective (maxPages_small (Nat.lt_of_lt_of_le inPool done.small)) (lent.bound done.small)
        (Prod.mk.inj sameLeaf).2
  · intro number unmapped
    show refOf pool number = _
    rw [refs, if_neg, kept.held number]
    · exact fun small other otherInside otherWalked below =>
        unmapped small other otherInside otherWalked (by omega)
    · rintro ⟨small, rfl⟩
      exact unmapped small offset inside walked (by omega) leaf

/-- A call of `__dune_vm_free_helper` for a page that was mapped. -/
theorem UnmapKept.free (kept : UnmapKept root va len perm mapped offset vm)
    (done : MapKept root va len perm before count (2 ^ 48) mapped)
    (leads : tableFor vm.mem root 0 offset = some dir) (inside : offset < 2 ^ 48)
    (walked : Walked va len offset) (aligned : entrySpan 0 ∣ offset) (at_ : Nat) :
    Advances (fun _ => False) (UnmapKept root va len perm mapped) root 0 vm
      (freeHelper ⟨dir, pdx 0 offset⟩ at_ vm) (offset + entrySpan 0) := by
  obtain ⟨page, leaf, lent, _⟩ := done.mapped offset inside walked inside
  have bound := lent.bound done.small
  have word : vm.mem dir (pdx 0 offset) = mappedTo perm page := by
    have here := leafOf_here leads (Or.inl rfl)
    rw [kept.left offset inside fun early => Nat.lt_irrefl _ early.2, leaf] at here
    exact (Prod.mk.inj here).2.symm
  have pointers := kept.grounded.store_pointers (tableFor_table leads) (pdx 0 offset) 0
  intro _
  unfold freeHelper
  dsimp only
  rw [word, pteAddr_mappedTo bound]
  by_cases small : mapped.pool.numPages < 2 ^ 19
  · -- the page is put back, with its only reference
    have referenced : refOf vm.pool page = 1 := by
      rw [kept.held page fun _ other otherInside otherWalked below same => ?_, lent.once]
      have onePage := done.apart offset inside walked inside other otherInside otherWalked otherInside
        (leaf.trans same.symm)
      exact ((page_span aligned other).mp onePage.symm).1 below
    have inPool : page < vm.pool.numPages := kept.pages ▸ lent.inPool
    have freed : ∀ other ∈ vm.pool.free, refOf vm.pool other = 0 := by
      intro other listed
      rw [refOf, ((kept.sound.exact other).mp listed).2, ite_self]
    obtain ⟨after, put, _, _, _, pages, refs⟩ := pagePut_spec kept.sound.freeList freed inPool
      (Nat.le_of_eq referenced.symm)
    have sound := (pagePut_sound kept.sound (Nat.le_of_eq referenced.symm)).2
    rw [put] at sound
    rw [pageIsFromPool_pageToPa (kept.pages.symm ▸ small) inPool, if_pos rfl, paToPage_pageToPa bound, put]
    refine Or.inr ⟨pointers, kept.store done leads inside walked aligned leaf lent sound pages fun other => ?_⟩
    rw [refs]
    by_cases isPage : other = page
    · rw [if_pos isPage, if_pos ⟨small, isPage⟩, isPage, referenced]
    · rw [if_neg isPage, if_neg (fun both => isPage both.2), Nat.sub_zero]
  · have foreign : pageIsFromPool vm.pool (pageToPa page) = false := by
      have wrapped := poolEnd_wrapped (Nat.not_lt.mp small) done.small
      rw [← Bool.not_eq_true, pageIsFromPool_iff, kept.pages]
      omega
    rw [foreign, if_neg (by simp)]
    refine Or.inr ⟨pointers, kept.store done leads inside walked aligned leaf lent kept.sound rfl fun other => ?_⟩
    rw [if_neg fun both => small both.1]

/-- A blank entry, or a big page, is none of those that were mapped. -/
theorem UnmapKept.level (kept : UnmapKept root va len perm mapped position vm)
    (done : MapKept root va len perm before count (2 ^ 48) mapped) (inside : offset < 2 ^ 48)
    (walked : Walked va len offset) (left : position ≤ offset) :
    ∃ page, leafOf vm.mem root offset = (0, mappedTo perm page) ∧ page < 2 ^ 30 := by
  obtain ⟨page, leaf, lent, _⟩ := done.mapped offset inside walked inside
  refine ⟨page, ?_, lent.bound done.small⟩
  rw [kept.left offset inside fun early => Nat.not_lt.mpr left early.2]
  exact leaf

theorem UnmapKept.no_big (kept : UnmapKept root va len perm mapped position vm)
    (done : MapKept root va len perm before count (2 ^ 48) mapped)
    (unmapped : Unmapped before.mem root va len) (positive : 0 < len) (inside : offset < 2 ^ 48)
    (leads : tableFor vm.mem root (low + 1) offset = some dir)
    (between : Between 3 (low + 1) va (lastVa va len) offset) :
    bigSlot (low + 1) .none (vm.mem dir (pdx (low + 1) offset)) = false := by
  by_contra isBig
  have big : bigSlot (low + 1) .none (vm.mem dir (pdx (low + 1) offset)) = true := by simpa using isBig
  obtain ⟨address, above, below, same⟩ := between.meets positive
  have addressInside : address % 2 ^ 48 < 2 ^ 48 := Nat.mod_lt _ (by decide)
  have leaf := leafOf_end leads same inside addressInside (by rw [tableOf, if_pos big])
  by_cases walked : Walked va len (address % 2 ^ 48)
  · by_cases early : address % 2 ^ 48 < position
    · rw [kept.cleared _ addressInside walked early] at leaf
      exact absurd (Prod.mk.inj leaf).1 (by simp)
    · obtain ⟨page, isMapped, _⟩ := kept.level done addressInside walked (Nat.not_lt.mp early)
      rw [isMapped] at leaf
      exact absurd (Prod.mk.inj leaf).1 (by simp)
  · have blank := (done.outside _ addressInside fun both => walked both.1).blank
      (by rw [leafOf_canonical]; exact unmapped address above below)
    rw [← kept.left _ addressInside fun both => walked both.1, leaf] at blank
    exact bigSlot_ne_zero big blank

theorem unmap_rule (done : MapKept root va len perm before count (2 ^ 48) mapped)
    (unmapped : Unmapped before.mem root va len) (positive : 0 < len) :
    OrderRule (fun _ => False) (UnmapKept root va len perm mapped) root va (lastVa va len) freeHelper .none where
  plain := Or.inl rfl
  cbLost := fun _ _ _ gone => gone
  allocLost := Or.inl rfl
  jump := fun _ _ _ _ _ _ kept gap => kept.extend gap.order fun offset _ above below =>
    gap.empty 0 (Nat.zero_le _) offset above below
  visit := by
    intro vm low dir offset kept inside leads between aligned visited
    cases low with
    | succ low =>
        rw [visitsWord, if_neg (by omega), kept.no_big done unmapped positive inside leads between] at visited
        exact absurd visited (by simp)
    | zero => exact kept.free done leads inside between aligned _
  skip := by
    intro _ vm low dir offset kept inside leads between aligned passed ends
    refine kept.extend (Nat.le_add_right _ _) fun other otherInside above below walked => ?_
    obtain ⟨page, leaf, bound⟩ := kept.level done otherInside walked above
    have same : other / entrySpan low = offset / entrySpan low := by
      rw [same_entry aligned above below]
    cases low with
    | zero =>
        rw [leafOf_shared (Nat.zero_le _) same inside otherInside, leafOf_here leads (Or.inl rfl)] at leaf
        rw [(Prod.mk.inj leaf).2] at passed
        exact mappedTo_ne_zero bound (by simpa [visitsWord] using passed)
    | succ low =>
        rw [leafOf_end leads same inside otherInside (ends low rfl)] at leaf
        exact absurd (Prod.mk.inj leaf).1 (by simp)
  install := Or.inl rfl

/-- After the map the unmap comes to its end. -/
theorem vmUnmap_kept (done : MapKept root va len perm before count (2 ^ 48) mapped)
    (unmapped : Unmapped before.mem root va len) (positive : 0 < len) :
    ∃ after, vmUnmap root va len mapped = (some (), after) ∧
      UnmapKept root va len perm mapped (2 ^ 48) after := by
  have start : UnmapKept root va len perm mapped 0 mapped := {
    grounded := done.grounded
    sound := done.sound
    pages := rfl
    pointers := PointersFrom.refl 0
    tables := fun _ => rfl
    cleared := fun _ _ _ below => absurd below (Nat.not_lt_zero _)
    left := fun _ _ _ => rfl
    put := fun _ _ _ _ below => absurd below (Nat.not_lt_zero _)
    held := fun _ _ => rfl }
  have returns := (pageWalk_returns freeHelper_returns 3 root va (lastVa va len) mapped done.small).1
  have walked := (unmap_rule done unmapped positive).pageWalk 3 root va (lastVa va len) 0 mapped start
    (orderedWalk_top mapped.mem root va (lastVa va len)) returns
  have whole : 0 + entrySpan (3 + 1) = 2 ^ 48 := Nat.zero_add _
  rw [whole] at walked
  refine ⟨(pageWalk freeHelper .none 3 root va (lastVa va len) mapped).2, ?_, (walked.resolve_left id).2⟩
  unfold vmUnmap
  generalize pageWalk freeHelper .none 3 root va (lastVa va len) mapped = outcome at returns ⊢
  obtain ⟨result, after⟩ := outcome
  obtain rfl : result = some 0 := returns
  rfl

/-! The two calls together. -/

section Together

variable (done : MapKept root va len perm before count (2 ^ 48) mapped)
variable (unmapped : Unmapped before.mem root va len) (positive : 0 < len)

include done

/-- All the demand was met. -/
theorem MapKept.size : mapped.pool.numPages = sizeAfter before.pool (mapDemand root va len before) := by
  have counted := done.counted
  rw [done.late.finish, Finset.card_empty, Nat.add_zero] at counted
  rw [done.took.numPages, counted]

/-- A page of the range is mapped if and only if the walk came to it. -/
theorem MapKept.walked_of_leaf (inside : offset < 2 ^ 48) (nonzero : (leafOf mapped.mem root offset).2 ≠ 0)
    (blank : (leafOf before.mem root offset).2 = 0) : Walked va len offset := by
  by_contra apart
  exact nonzero ((done.outside offset inside fun both => apart both.1).blank blank)

include unmapped positive

theorem MapKept.mapsFresh : MapsFresh root va len before mapped := by
  have inside : ∀ address, address % 2 ^ 48 < 2 ^ 48 := fun address => Nat.mod_lt _ (by decide)
  have walked : ∀ address, va ≤ address → address < va + len → (leafOf mapped.mem root address).2 ≠ 0 →
      Walked va len (address % 2 ^ 48) := by
    intro address above below nonzero
    refine done.walked_of_leaf (inside address) ?_ ?_
    · rwa [leafOf_canonical]
    · rw [leafOf_canonical]
      exact unmapped address above below
  refine ⟨fun address above below nonzero => ?_, fun first second firstAbove firstBelow secondAbove secondBelow
    firstNonzero secondNonzero same => ?_, fun block address above below => ?_⟩
  · obtain ⟨page, leaf, lent, _⟩ := done.mapped _ (inside address) (walked address above below nonzero)
      (inside address)
    rw [leafOf_canonical] at leaf
    refine ⟨page, lent.inPool, ?_, lent.unused, lent.once⟩
    rw [leaf, pteAddr_mappedTo (lent.bound done.small)]
  · have firstWalked := walked first firstAbove firstBelow firstNonzero
    have secondWalked := walked second secondAbove secondBelow secondNonzero
    obtain ⟨one, firstLeaf, firstLent, _⟩ := done.mapped _ (inside first) firstWalked (inside first)
    obtain ⟨two, secondLeaf, secondLent, _⟩ := done.mapped _ (inside second) secondWalked (inside second)
    rw [← leafOf_canonical, firstLeaf, ← leafOf_canonical mapped.mem root second, secondLeaf,
      pteAddr_mappedTo (firstLent.bound done.small), pteAddr_mappedTo (secondLent.bound done.small)] at same
    obtain rfl := pageToPa_injective (firstLent.bound done.small) (secondLent.bound done.small) same
    exact done.apart _ (inside first) firstWalked (inside first) _ (inside second) secondWalked (inside second)
      (firstLeaf.trans secondLeaf.symm)
  · have span : entrySpan (3 + 1) = 2 ^ 48 := rfl
    have between : Walked va len (address % 2 ^ 48) := by
      rw [Walked, Between, span, lastVa_mod positive]
      exact ⟨Nat.div_le_div_right (by omega), Nat.div_le_div_right (by omega)⟩
    have nonzero := done.nonblank (inside address) between (inside address)
    rwa [leafOf_canonical] at nonzero

theorem UnmapKept.undone {after : Vm} (kept : UnmapKept root va len perm mapped (2 ^ 48) after)
    (built : RootBuilt before root) (sound : PoolSound before.pool) (keeps : ¬ KeepsPage root va len before) :
    Undone root before after := by
  have lentOnly : ∀ page < mapped.pool.numPages, ∀ offset < 2 ^ 48, Walked va len offset →
      leafOf mapped.mem root offset = (0, mappedTo perm page) → Lent root before mapped page ∧
        (page ∈ before.pool.free → tablesFirst root va before < before.pool.free.length) := by
    intro page inPool offset inside walked leaf
    obtain ⟨number, leafAgain, lent, early⟩ := done.mapped offset inside walked inside
    rw [leafAgain] at leaf
    obtain rfl := mappedTo_injective (lent.bound done.small)
      (maxPages_small (Nat.lt_of_lt_of_le inPool done.small)) (Prod.mk.inj leaf).2
    exact ⟨lent, early⟩
  refine ⟨fun address => ?_, fun page used => ?_, fun page listed => ?_⟩
  · have inside : address % 2 ^ 48 < 2 ^ 48 := Nat.mod_lt _ (by decide)
    rw [translate_leaf kept.grounded.forest, translate_leaf built.forest, ← leafOf_canonical,
      ← leafOf_canonical before.mem]
    apply SameLeaf.translates
    by_cases walked : Walked va len (address % 2 ^ 48)
    · rw [kept.cleared _ inside walked inside]
      exact Or.inr ⟨rfl, unmapped.walked positive inside walked⟩
    · rw [kept.left _ inside fun both => walked both.1]
      exact done.outside _ inside fun both => walked both.1
  · have inPool : page < mapped.pool.numPages := Nat.lt_of_lt_of_le (refOf_pos used).1 done.grows
    rw [kept.held page fun _ offset inside walked _ leaf => ?_, done.refs page used]
    have unused := (lentOnly page inPool offset inside walked leaf).1.unused
    omega
  · obtain ⟨inBefore, unused⟩ := (sound.exact page).mp listed
    have inPool : page < mapped.pool.numPages := Nat.lt_of_lt_of_le inBefore done.grows
    have freeAgain : refOf after.pool page = 0 → page ∈ after.pool.free := by
      intro none
      rw [refOf, if_pos (kept.pages.symm ▸ inPool)] at none
      exact (kept.sound.exact page).mpr ⟨kept.pages.symm ▸ inPool, none⟩
    rcases done.given page (by rw [refOf, unused, ite_self]) with free | ⟨low, table⟩ |
      ⟨offset, inside, walked, _, leaf⟩
    · refine Or.inl (freeAgain ?_)
      rw [kept.held page fun _ offset inside walked _ leaf => ?_, free]
      have once := (lentOnly page inPool offset inside walked leaf).1.once
      omega
    · exact Or.inr ⟨low, kept.pointers.table (Nat.zero_le low) table⟩
    · by_cases small : mapped.pool.numPages < 2 ^ 19
      · exact Or.inl (freeAgain (kept.put small offset inside walked inside page inPool leaf))
      · rw [done.size] at small
        exact absurd ⟨walked.start, Nat.not_lt.mp small,
          (lentOnly page inPool offset inside walked leaf).2 listed⟩ keeps

omit unmapped positive in
/-- A page that the unmap does not take for the pool's stays in use. -/
theorem UnmapKept.not_undone {after : Vm} (kept : UnmapKept root va len perm mapped (2 ^ 48) after)
    (sound : PoolSound before.pool) (keeps : KeepsPage root va len before) : ¬ Undone root before after := by
  intro undone
  obtain ⟨walked, large, early⟩ := keeps
  have inside : va % 2 ^ 48 < 2 ^ 48 := Nat.mod_lt _ (by decide)
  obtain ⟨page, listed, leaf⟩ := (done.started walked inside).2 early
  obtain ⟨number, leafAgain, lent, _⟩ := done.mapped _ inside walked inside
  have bound := maxPages_small (Nat.lt_of_lt_of_le ((sound.exact page).mp listed).1
    (Nat.le_trans done.grows done.small))
  rw [leafAgain] at leaf
  obtain rfl := mappedTo_injective (lent.bound done.small) bound (Prod.mk.inj leaf).2
  have used : refOf after.pool number = 1 := by
    rw [kept.held number fun small => absurd small ?_, lent.once]
    rw [done.size]
    omega
  rcases undone.free number listed with free | ⟨low, table⟩
  · obtain ⟨_, unused⟩ := (kept.sound.exact number).mp free
    rw [refOf, unused, ite_self] at used
    exact absurd used (by simp)
  · have occurs := table.copies_pos (List.mem_singleton.mpr rfl)
    rw [kept.tables, lent.apart] at occurs
    exact absurd occurs (by simp)

end Together

/-- Mapping pages where none are and unmapping them are inverse exactly if the pool does not outgrow
its table, nor comes to 2 GB with a page of its free list mapped. -/
theorem map_unmap_inverse_iff (built : RootBuilt vm root) (sound : PoolSound vm.pool)
    (positive : 0 < len) (unmapped : Unmapped vm.mem root va len)
    (returns : (vmMapPages root va len perm vm).1 = some 0) :
    MapUnmapInverse root va len perm vm ↔
      sizeAfter vm.pool (mapDemand root va len vm) ≤ maxPages ∧ ¬ KeepsPage root va len vm := by
  have mapped := vmMapPages_kept perm built sound unmapped positive returns
  constructor
  · intro inverse
    obtain ⟨count, done⟩ := mapped.resolve_left fun lost => Nat.not_le.mpr lost.1 inverse.window
    obtain ⟨after, result, kept⟩ := vmUnmap_kept done unmapped positive
    refine ⟨done.size ▸ inverse.window, fun keeps => ?_⟩
    obtain ⟨other, otherResult, undone⟩ := inverse.undone
    obtain rfl : after = other := by
      rw [result] at otherResult
      exact (Prod.mk.inj otherResult).2
    exact kept.not_undone done sound keeps undone
  · rintro ⟨room, keeps⟩
    obtain ⟨count, done⟩ := mapped.resolve_left fun lost => Nat.not_le.mpr lost.2 room
    obtain ⟨after, result, kept⟩ := vmUnmap_kept done unmapped positive
    exact ⟨done.small, done.mapsFresh unmapped positive, after, result,
      kept.undone done unmapped positive built sound keeps⟩

theorem unmapped_blank (root : PhysAddr) (va len : Nat) : Unmapped (fun _ _ => 0) root va len := by
  intro address _ _
  simp [leafOf, leafAt]

theorem blank_root {pool : PagePool} (list : FreeList pool) : RootBuilt ⟨pool, fun _ _ => 0⟩ 0x1000#64 :=
  (blank_grounded list (by decide)).weaken fun _ _ => Or.inl

/-- One page and three tables are all that the first page of a blank root needs. -/
theorem map_unmap_inverse_iff_first : MapUnmapInverse 0x1000#64 0 4096 (permR ||| permW) blankVm := by
  have sound := pageInit_sound blankVm_pool
  have demand : mapDemand 0x1000#64 0 4096 blankVm ≤ 4 := by
    have first : unmet blankVm.mem 0x1000#64 0 (lastVa 0 4096) ⊆ Finset.range 4 ×ˢ {0} := by
      rintro ⟨level, number⟩ member
      obtain ⟨bound, _, between, _⟩ := mem_unmet.mp member
      have last : lastVa 0 4096 % entrySpan (3 + 1) / entrySpan level = 0 := by
        apply Nat.div_eq_of_lt
        have least := Nat.le_of_dvd (entrySpan_pos level) (entrySpan_dvd (Nat.zero_le level))
        exact Nat.lt_of_lt_of_le (show lastVa 0 4096 % entrySpan (3 + 1) < entrySpan 0 by decide) least
      have none := between.2
      rw [last, Nat.mul_div_cancel _ (entrySpan_pos level)] at none
      simp only [Finset.mem_product, Finset.mem_range, Finset.mem_singleton]
      omega
    exact Nat.le_trans (Finset.card_le_card first) (by simp)
  have size : sizeAfter blankVm.pool (mapDemand 0x1000#64 0 4096 blankVm) ≤ 512 :=
    Nat.le_trans (sizeAfter_mono _ demand) (by decide +kernel)
  have built : RootBuilt blankVm 0x1000#64 := blank_root sound.freeList
  have unmapped : Unmapped blankVm.mem 0x1000#64 0 4096 := unmapped_blank _ _ _
  refine (map_unmap_inverse_iff built sound (by decide) unmapped (by decide +kernel)).mpr
    ⟨by unfold maxPages; omega, ?_⟩
  rintro ⟨_, large, _⟩
  omega

/-- A pool of 2 GB with four pages free. -/
def fullPool : PagePool where
  numPages := 2 ^ 19
  ref := fun page => if page < 4 then 0 else 1
  free := [0, 1, 2, 3]
  mmapOk := fun _ => true
  mapped := (List.range 1024).map fun window => pageBase + poolBytes (window * growSizePages)
  failed := false
  putZero := false

def fullVm : Vm := ⟨fullPool, fun _ _ => 0⟩

theorem fullPool_sound : PoolSound fullPool := by
  refine ⟨by decide, fun page => ?_⟩
  simp only [fullPool, List.mem_cons, List.not_mem_nil, or_false]
  by_cases small : page < 4
  · rw [if_pos small]
    omega
  · rw [if_neg small]
    omega

/-- Three of the pages become tables, and the fourth stays in use when it is unmapped. -/
theorem unmapped_page_stays_in_use :
    RootBuilt fullVm 0x1000#64 ∧ PoolSound fullVm.pool ∧ Unmapped fullVm.mem 0x1000#64 0 4096 ∧
      (vmMapPages 0x1000#64 0 4096 (permR ||| permW) fullVm).1 = some 0 ∧
      ¬ ∃ after, vmUnmap 0x1000#64 0 4096 (vmMapPages 0x1000#64 0 4096 (permR ||| permW) fullVm).2 =
        (some (), after) ∧ Undone 0x1000#64 fullVm after := by
  have built : RootBuilt fullVm 0x1000#64 := blank_root fullPool_sound.freeList
  have unmapped := unmapped_blank 0x1000#64 0 4096
  have returns : (vmMapPages 0x1000#64 0 4096 (permR ||| permW) fullVm).1 = some 0 ∧
      (vmMapPages 0x1000#64 0 4096 (permR ||| permW) fullVm).2.pool.numPages ≤ maxPages := by decide +kernel
  refine ⟨built, fullPool_sound, unmapped, returns.1, ?_⟩
  rintro ⟨after, result, undone⟩
  obtain ⟨count, done⟩ := (vmMapPages_kept (permR ||| permW) built fullPool_sound unmapped (by decide)
    returns.1).resolve_left fun lost => Nat.not_le.mpr lost.1 returns.2
  obtain ⟨other, otherResult, kept⟩ := vmUnmap_kept done unmapped (by decide)
  obtain rfl : other = after := by
    rw [otherResult] at result
    exact (Prod.mk.inj result).2
  have walked : Walked 0 4096 (0 % 2 ^ 48) := by
    unfold Walked
    decide
  have large := le_sizeAfter fullVm.pool (mapDemand 0x1000#64 0 4096 fullVm)
  refine kept.not_undone done fullPool_sound ⟨walked, large, ?_⟩ undone
  simp [tablesFirst, leafOf, leafAt, fullVm, fullPool]

end RdmaPaging
