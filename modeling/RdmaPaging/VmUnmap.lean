import RdmaPaging.VmClone

/-!
`dune_vm_unmap` of a range of 4 KB pages. The walk goes from one entry to the next in the
order of addresses and enters no table outside the range, so the entries of the range are
cleared and no other word changes.
-/

namespace RdmaPaging

open RadixTree

/-- A walk from `startVa` to `endVa` inside what one table spans. -/
structure Stretch (level startVa endVa : Nat) : Prop where
  order : startVa ≤ endVa
  block : endVa / entrySpan (level + 1) = startVa / entrySpan (level + 1)
  canonical : endVa < 2 ^ 48

variable {level startVa endVa index va : Nat}

/-- The first address that the table of `va` spans. -/
def blockStart (level va : Nat) : Nat := va / entrySpan (level + 1) * entrySpan (level + 1)

theorem pdx_floor (level va : Nat) :
    blockStart level va + pdx level va * entrySpan level = va / entrySpan level * entrySpan level := by
  rw [blockStart, pdx_eq, entrySpan_succ, Nat.mul_comm nptentries, ← Nat.div_div_eq_div_mul,
    Nat.mul_comm (entrySpan level) nptentries, ← Nat.mul_assoc, ← Nat.add_mul, Nat.mul_comm _ nptentries,
    Nat.div_add_mod]

theorem pdx_low (level va : Nat) : blockStart level va + pdx level va * entrySpan level ≤ va := by
  rw [pdx_floor]
  exact Nat.div_mul_le_self va _

theorem pdx_high (level va : Nat) :
    va < blockStart level va + (pdx level va + 1) * entrySpan level := by
  rw [Nat.add_mul, Nat.one_mul, ← Nat.add_assoc, pdx_floor]
  have quotient := Nat.div_add_mod' va (entrySpan level)
  have remainder := Nat.mod_lt va (entrySpan_pos level)
  omega

theorem blockStart_aligned (level va : Nat) : entrySpan (level + 1) ∣ blockStart level va :=
  Nat.dvd_mul_left _ _

theorem curVa_block (level startVa index : Nat) :
    curVa level startVa index = blockStart level startVa + index * entrySpan level := rfl

section Positions

variable (stretch : Stretch level startVa endVa)

include stretch

theorem Stretch.end_block : blockStart level endVa = blockStart level startVa := by
  rw [blockStart, blockStart, stretch.block]

theorem Stretch.pdx_le : pdx level startVa ≤ pdx level endVa := by
  have low := pdx_low level startVa
  have high := pdx_high level endVa
  rw [stretch.end_block] at high
  have order := stretch.order
  have below : pdx level startVa * entrySpan level < (pdx level endVa + 1) * entrySpan level := by
    omega
  exact Nat.lt_succ_iff.mp (Nat.lt_of_mul_lt_mul_right below)

/-- The position of the walk before the entry `index`. -/
def Stretch.position (_ : Stretch level startVa endVa) (index : Nat) : Nat :=
  max startVa (min (endVa + 1) (blockStart level startVa + index * entrySpan level))

theorem Stretch.position_first : stretch.position (pdx level startVa) = startVa := by
  have low := pdx_low level startVa
  simp only [Stretch.position]
  omega

theorem Stretch.position_last : stretch.position (pdx level endVa + 1) = endVa + 1 := by
  have high := pdx_high level endVa
  rw [stretch.end_block] at high
  have order := stretch.order
  simp only [Stretch.position]
  omega

/-- Where the walk of the entry `index` starts and ends. -/
theorem Stretch.entry (low : pdx level startVa ≤ index) (high : index ≤ pdx level endVa) :
    (if index = pdx level startVa then startVa else curVa level startVa index) =
        stretch.position index ∧
      (if index = pdx level endVa then endVa
        else (curVa level startVa index + pdaddr level 1 - 1) % 2 ^ 64) + 1 =
        stretch.position (index + 1) ∧
      startVa ≤ stretch.position index ∧ stretch.position index < stretch.position (index + 1) ∧
      stretch.position (index + 1) ≤ endVa + 1 ∧
      blockStart level startVa + index * entrySpan level ≤ stretch.position index ∧
      stretch.position (index + 1) ≤ blockStart level startVa + (index + 1) * entrySpan level := by
  have canonical := stretch.canonical
  have order := stretch.order
  have pos := entrySpan_pos level
  have one : pdaddr level 1 = entrySpan level := by rw [pdaddr, Nat.one_mul, entrySpan]
  have next : (index + 1) * entrySpan level = index * entrySpan level + entrySpan level := by
    rw [Nat.add_mul, Nat.one_mul]
  have started : index = pdx level startVa ∧
        blockStart level startVa + index * entrySpan level ≤ startVa ∧
        startVa < blockStart level startVa + (index + 1) * entrySpan level ∨
      index ≠ pdx level startVa ∧ startVa < blockStart level startVa + index * entrySpan level := by
    by_cases first : index = pdx level startVa
    · rw [first]
      exact Or.inl ⟨rfl, pdx_low level startVa, pdx_high level startVa⟩
    · have high := pdx_high level startVa
      have later : (pdx level startVa + 1) * entrySpan level ≤ index * entrySpan level :=
        Nat.mul_le_mul_right _ (by omega)
      exact Or.inr ⟨first, by omega⟩
  have endLow := pdx_low level endVa
  have endHigh := pdx_high level endVa
  rw [stretch.end_block] at endLow endHigh
  have reaches : index * entrySpan level ≤ pdx level endVa * entrySpan level :=
    Nat.mul_le_mul_right _ high
  have ended : index = pdx level endVa ∧
        endVa < blockStart level startVa + (index + 1) * entrySpan level ∨
      index ≠ pdx level endVa ∧
        blockStart level startVa + (index + 1) * entrySpan level ≤ endVa := by
    by_cases last : index = pdx level endVa
    · rw [last]
      exact Or.inl ⟨rfl, endHigh⟩
    · have earlier : (index + 1) * entrySpan level ≤ pdx level endVa * entrySpan level :=
        Nat.mul_le_mul_right _ (by omega)
      exact Or.inr ⟨last, by omega⟩
  rw [curVa_block, one]
  simp only [Stretch.position]
  rw [next] at started ended ⊢
  rcases started with ⟨first, startLow, startHigh⟩ | ⟨notFirst, startLow⟩
  · rcases ended with ⟨last, endsIn⟩ | ⟨notLast, endsIn⟩
    · rw [if_pos first, if_pos last]
      omega
    · rw [if_pos first, if_neg notLast]
      omega
  · rcases ended with ⟨last, endsIn⟩ | ⟨notLast, endsIn⟩
    · rw [if_neg notFirst, if_pos last]
      omega
    · rw [if_neg notFirst, if_neg notLast]
      omega

theorem Stretch.position_aligned (startAligned : 4096 ∣ startVa) (endAligned : 4096 ∣ endVa + 1)
    (index : Nat) : 4096 ∣ stretch.position index := by
  have block : 4096 ∣ blockStart level startVa + index * entrySpan level :=
    Nat.dvd_add (Nat.dvd_trans (entrySpan_dvd (Nat.zero_le _)) (blockStart_aligned level startVa))
      (Nat.dvd_trans (entrySpan_dvd (Nat.zero_le _)) (Nat.dvd_mul_left _ _))
  obtain isStart | isEnd | isEntry : stretch.position index = startVa ∨
      stretch.position index = endVa + 1 ∨
      stretch.position index = blockStart level startVa + index * entrySpan level := by
    simp only [Stretch.position]
    omega
  · rw [isStart]
    exact startAligned
  · rw [isEnd]
    exact endAligned
  · rw [isEntry]
    exact block

/-- The addresses of an entry's part have its index. -/
theorem Stretch.pdx_entry (low : pdx level startVa ≤ index) (high : index ≤ pdx level endVa)
    (first : stretch.position index ≤ va) (last : va < stretch.position (index + 1)) :
    pdx level va = index := by
  obtain ⟨_, _, _, _, _, above, below⟩ := stretch.entry low high
  have bound := Nat.lt_of_le_of_lt high (pdx_bound level endVa)
  exact pdx_inside (blockStart_aligned level startVa) bound (by omega) (by omega)

end Positions

/-- The walk of the table that an entry names stays inside what that table spans. -/
theorem Stretch.below (stretch : Stretch (level + 1) startVa endVa)
    (low : pdx (level + 1) startVa ≤ index) (high : index ≤ pdx (level + 1) endVa) :
    Stretch level (stretch.position index) (stretch.position (index + 1) - 1) := by
  obtain ⟨_, _, first, order, last, above, below⟩ := stretch.entry low high
  have canonical := stretch.canonical
  have next : (index + 1) * entrySpan (level + 1) =
      index * entrySpan (level + 1) + entrySpan (level + 1) := by
    rw [Nat.add_mul, Nat.one_mul]
  have pos := entrySpan_pos (level + 1)
  have aligned : entrySpan (level + 1) ∣ blockStart (level + 1) startVa :=
    Nat.dvd_trans (entrySpan_dvd (Nat.le_succ _)) (blockStart_aligned _ _)
  obtain ⟨times, block⟩ := aligned
  have inBlock : ∀ va, blockStart (level + 1) startVa + index * entrySpan (level + 1) ≤ va →
      va < blockStart (level + 1) startVa + (index + 1) * entrySpan (level + 1) →
      va / entrySpan (level + 1) = times + index := by
    intro va low high
    rw [block, Nat.mul_comm, ← Nat.add_mul] at low high
    apply Nat.div_eq_of_lt_le
    · exact low
    · rw [Nat.add_assoc]
      exact high
  refine ⟨by omega, ?_, by omega⟩
  rw [inBlock _ (by omega) (by omega), inBlock _ (by omega) (by omega)]

/-- The walk has cleared the 4 KB entries from `first` up to the address `done`. -/
structure UnmapInv (mem : PhysAddr → Nat → Ptent) (root : PhysAddr) (first done : Nat) (vm : Vm) :
    Prop where
  forest : Forest entryBuilt vm.mem [treeOf root]
  upper : ∀ low dir, (treeOf root).Table mem (low + 1) dir → ∀ index < nptentries,
    vm.mem dir index = mem dir index
  words : ∀ va < 2 ^ 48, leafWord vm.mem root va =
    if first ≤ va ∧ va < done then 0 else leafWord mem root va
  inWindow : vm.pool.numPages ≤ maxPages

section Unmap

variable {mem : PhysAddr → Nat → Ptent} {root dir : PhysAddr} {first done : Nat} {vm : Vm}

/-- The routes of a root whose upper tables are unchanged. -/
theorem leafTable_congr (upper : ∀ low dir, (treeOf root).Table mem (low + 1) dir →
    ∀ index < nptentries, vm.mem dir index = mem dir index) (va : Nat) :
    leafTable vm.mem root va = leafTable mem root va :=
  reach_congr (fun level => pdx_bound level va) upper

/-- An entry is stored to, whatever becomes of the pool. -/
theorem UnmapInv.clear (inv : UnmapInv mem root first va vm) (leads : leafTable mem root va = some dir)
    {pool : PagePool} (samePages : pool.numPages = vm.pool.numPages) (aligned : 4096 ∣ va)
    (inRange : first ≤ va) (canonical : va + 4096 ≤ 2 ^ 48) :
    UnmapInv mem root first (va + 4096) (Vm.setPte { vm with pool := pool } ⟨dir, pdx 0 va⟩ 0) := by
  have alone : treeOf root ∈ [treeOf root] := by simp
  have leadsNow : leafTable vm.mem root va = some dir := by
    rw [leafTable_congr inv.upper]
    exact leads
  have table : (treeOf root).Table vm.mem 0 dir := leafTable_table rfl leadsNow
  have bound := pdx_bound 0 va
  refine ⟨inv.forest.setLeaf alone table bound 0, fun low top inside index inTable => ?_,
    fun other otherCanonical => ?_, samePages ▸ inv.inWindow⟩
  · have now : (treeOf root).Table vm.mem (low + 1) top :=
      Within.congr inside fun lower top inside => inv.upper lower top inside
    show setWord vm.mem dir (pdx 0 va) 0 top index = _
    rw [inv.forest.setLeaf_above alone table 0 alone now]
    exact inv.upper low top inside index inTable
  · show leafWord (setWord vm.mem dir (pdx 0 va) 0) root other = _
    rw [leafWord_store inv.forest leadsNow (by omega) otherCanonical, inv.words other otherCanonical]
    by_cases page : other / 4096 = va / 4096
    · rw [if_pos page, if_pos (by omega)]
    · rw [if_neg page]
      by_cases inside : first ≤ other ∧ other < va
      · rw [if_pos inside, if_pos (by omega)]
      · rw [if_neg inside, if_neg (by omega)]

/-- A blank entry needs no store. -/
theorem UnmapInv.skip (inv : UnmapInv mem root first va vm) (leads : leafTable mem root va = some dir)
    (blank : vm.mem dir (pdx 0 va) = 0) (aligned : 4096 ∣ va) :
    UnmapInv mem root first (va + 4096) vm := by
  refine { inv with words := fun other canonical => ?_ }
  have old := inv.words other canonical
  by_cases page : other / 4096 = va / 4096
  · have route : (fun level => pdx level other) = fun level => pdx level va :=
      funext fun level => pdx_same_page page level
    have leadsNow : leafTable vm.mem root va = some dir := by
      rw [leafTable_congr inv.upper]
      exact leads
    have word : leafWord vm.mem root other = 0 := by
      rw [leafWord, route, wordAt_of_reach leadsNow]
      exact blank
    rw [word]
    split
    · rfl
    · rename_i outside
      rw [word, if_neg (by omega)] at old
      exact old
  · rw [old]
    by_cases inside : first ≤ other ∧ other < va
    · rw [if_pos inside, if_pos (by omega)]
    · rw [if_neg inside, if_neg (by omega)]

theorem freeHelper_clears (inv : UnmapInv mem root first va vm)
    (leads : leafTable mem root va = some dir) (aligned : 4096 ∣ va) (inRange : first ≤ va)
    (canonical : va + 4096 ≤ 2 ^ 48) (at_ : Nat) :
    (freeHelper ⟨dir, pdx 0 va⟩ at_ vm).1 = some 0 ∧
      UnmapInv mem root first (va + 4096) (freeHelper ⟨dir, pdx 0 va⟩ at_ vm).2 := by
  unfold freeHelper
  dsimp only
  split
  · rename_i fromPool
    obtain ⟨page, inPool, _, isPage⟩ := pageIsFromPool_page inv.inWindow fromPool
    rw [isPage, pagePut, if_pos inPool]
    exact ⟨rfl, inv.clear leads rfl aligned inRange canonical⟩
  · exact ⟨rfl, inv.clear leads rfl aligned inRange canonical⟩

/-- The loop of `dune_vm_unmap` over the entries of a stretch. -/
theorem unmapLoop_clears {body : Nat → Vm → Option Int × Vm} (stretch : Stretch level startVa endVa)
    (clears : ∀ index vm, pdx level startVa ≤ index → index ≤ pdx level endVa →
      UnmapInv mem root first (stretch.position index) vm → (body index vm).1 = some 0 ∧
        UnmapInv mem root first (stretch.position (index + 1)) (body index vm).2)
    (inv : UnmapInv mem root first startVa vm) :
    (walkLoop body (walkIndices level startVa endVa) vm).1 = some 0 ∧ UnmapInv mem root first
      (endVa + 1) (walkLoop body (walkIndices level startVa endVa) vm).2 := by
  have order := stretch.pdx_le
  have begun : UnmapInv mem root first (stretch.position (pdx level startVa)) vm := by
    rw [stretch.position_first]
    exact inv
  have loop := walkLoop_moves (fun _ => False) (fun index => UnmapInv mem root first (stretch.position index))
    (fun _ _ gone => gone) (pdx level endVa + 1 - pdx level startVa) (pdx level startVa)
    (fun index vm low high reached => Or.inr (clears index vm low (by omega) reached)) vm begun
  have last : pdx level startVa + (pdx level endVa + 1 - pdx level startVa) = pdx level endVa + 1 := by
    omega
  rw [last, stretch.position_last] at loop
  exact loop.resolve_left id

/-- The walk of `dune_vm_unmap` through a table whose range is mapped by 4 KB entries. -/
theorem unmapWalk_clears (level : Nat) (dir : PhysAddr) (startVa endVa : Nat) (vm : Vm)
    (stretch : Stretch level startVa endVa) (table : (treeOf root).Table mem level dir)
    (route : ∀ va, startVa ≤ va → va ≤ endVa → ∃ leaf, leafTable mem root va = some leaf ∧
      reach tableOf mem (fun level => pdx level va) level dir = some leaf)
    (startAligned : 4096 ∣ startVa) (endAligned : 4096 ∣ endVa + 1) (inRange : first ≤ startVa)
    (inv : UnmapInv mem root first startVa vm) :
    (pageWalk freeHelper .none level dir startVa endVa vm).1 = some 0 ∧
      UnmapInv mem root first (endVa + 1) (pageWalk freeHelper .none level dir startVa endVa vm).2 := by
  induction level generalizing dir startVa endVa vm with
  | zero =>
      refine unmapLoop_clears stretch (fun index vm low high reached => ?_) inv
      obtain ⟨_, _, begins, order, ends, above, below⟩ := stretch.entry low high
      have canonical := stretch.canonical
      have here := stretch.position_aligned startAligned endAligned index
      have next := stretch.position_aligned startAligned endAligned (index + 1)
      have position := stretch.pdx_entry low high (Nat.le_refl _) order
      rw [Nat.add_mul, Nat.one_mul, entrySpan_zero] at below
      rw [entrySpan_zero] at above
      have page : stretch.position (index + 1) = stretch.position index + 4096 := by omega
      obtain ⟨leaf, leads, isDir⟩ := route (stretch.position index) begins (by omega)
      obtain rfl : dir = leaf := Option.some.inj isDir
      unfold walkLeaf
      rw [page]
      split
      · have cleared := freeHelper_clears reached leads here (by omega) (by omega)
          (curVa 0 startVa index)
        rw [position] at cleared
        exact cleared
      · rename_i blank
        have isZero : vm.mem dir (pdx 0 (stretch.position index)) = 0 := by
          rw [position]
          simpa using blank
        exact ⟨rfl, reached.skip leads isZero here⟩
  | succ level ih =>
      refine unmapLoop_clears stretch (fun index vm low high reached => ?_) inv
      obtain ⟨starts, finishes, begins, order, ends, above, below⟩ := stretch.entry low high
      have bound := Nat.lt_of_le_of_lt high (pdx_bound _ endVa)
      have word := reached.upper level dir table index bound
      have position : ∀ va, stretch.position index ≤ va → va < stretch.position (index + 1) →
          pdx (level + 1) va = index := fun va lower upper =>
        stretch.pdx_entry low high lower upper
      obtain ⟨leaf, _, leads⟩ := route (stretch.position index) begins (by omega)
      simp only [reach] at leads
      rw [position _ (Nat.le_refl _) order] at leads
      split at leads
      · rename_i under points
        obtain ⟨slot, present, isTable⟩ := tableOf_some points
        unfold walkEntry
        dsimp only
        rw [starts, word, slot, if_neg (by simp), if_pos present, isTable]
        have inside := ih under (stretch.position index) (stretch.position (index + 1) - 1) vm
          (stretch.below low high) (Within.step table bound points) (fun va lower upper => ?_)
          (stretch.position_aligned startAligned endAligned index)
          (by
            rw [Nat.sub_add_cancel (by omega)]
            exact stretch.position_aligned startAligned endAligned (index + 1))
          (Nat.le_trans inRange begins) reached
        · rw [Nat.sub_add_cancel (by omega)] at inside
          have last : (if index = pdx (level + 1) endVa then endVa
              else (curVa (level + 1) startVa index + pdaddr (level + 1) 1 - 1) % 2 ^ 64) =
              stretch.position (index + 1) - 1 := by omega
          rw [last]
          exact inside
        · obtain ⟨other, otherLeads, otherRoute⟩ := route va (by omega) (by omega)
          refine ⟨other, otherLeads, ?_⟩
          simp only [reach] at otherRoute
          rw [position va lower (by omega), points] at otherRoute
          exact otherRoute
      · simp at leads

/-- `dune_vm_unmap` of a range that is mapped by 4 KB entries clears those entries. -/
theorem vmUnmap_clears {len : Nat} (forest : Forest entryBuilt vm.mem [treeOf root])
    (inWindow : vm.pool.numPages ≤ maxPages) (aligned : 4096 ∣ va) (whole : 4096 ∣ len)
    (some_ : 0 < len) (canonical : va + len ≤ 2 ^ 48)
    (mapped : ∀ other, va ≤ other → other < va + len → leafTable vm.mem root other ≠ none) :
    ∃ next, vmUnmap root va len vm = (some (), next) ∧
      UnmapInv vm.mem root va (va + len) next := by
  have last : lastVa va len = va + len - 1 := by
    simp only [lastVa, BitVec.toNat_sub, BitVec.toNat_add, BitVec.toNat_ofNat]
    omega
  have small : ∀ other, other < 2 ^ 48 → other / entrySpan 4 = 0 := fun other bound =>
    Nat.div_eq_of_lt bound
  have stretch : Stretch 3 va (va + len - 1) := by
    refine ⟨by omega, ?_, by omega⟩
    rw [small _ (by omega), small _ (by omega)]
  have initial : UnmapInv vm.mem root va va vm := by
    refine ⟨forest, fun _ _ _ _ _ => rfl, fun other _ => ?_, inWindow⟩
    rw [if_neg (by omega)]
  obtain ⟨result, cleared⟩ := unmapWalk_clears 3 root va (va + len - 1) vm stretch
    (Tree.rootTable (treeOf root) vm.mem)
    (fun other low high => by
      obtain ⟨leaf, leads⟩ := Option.ne_none_iff_exists'.mp (mapped other low (by omega))
      exact ⟨leaf, leads, leads⟩)
    aligned (by rw [Nat.sub_add_cancel (by omega)]; exact Nat.dvd_add aligned whole) (Nat.le_refl _)
    initial
  rw [Nat.sub_add_cancel (by omega)] at cleared
  refine ⟨_, ?_, cleared⟩
  unfold vmUnmap
  rw [last]
  generalize pageWalk freeHelper .none 3 root va (va + len - 1) vm = outcome at result ⊢
  obtain ⟨ret, next⟩ := outcome
  obtain rfl : ret = some 0 := result
  rfl

end Unmap

end RdmaPaging
