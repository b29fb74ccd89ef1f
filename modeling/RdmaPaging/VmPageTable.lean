import RdmaPaging.VmClone
import RdmaPaging.VmProtect

/-!
Roots without big pages, seen as the function from page numbers to 4 KB entries. A walk whose
function stores to the entry that it is called with goes over this function in the order of the
pages.
-/

namespace RdmaPaging

open RadixTree

variable {σ : Type*}

/-- Entries by the number of their page. -/
abbrev PageTable := Nat → Ptent

def pageTable (mem : PhysAddr → Nat → Ptent) (root : PhysAddr) : PageTable := fun page =>
  if page < 2 ^ 36 then leafWord mem root (page * 4096) else 0

def PageTable.set (table : PageTable) (page : Nat) (pte : Ptent) : PageTable := fun other =>
  if other = page then pte else table other

/-- A function of a walk: from the address, `*ptep` and the state behind `arg` to its result,
what it leaves in `*ptep`, and the state. -/
abbrev EntryCb (σ : Type*) := Nat → Ptent → σ → Int × Ptent × σ

/-- The function, called for entries of tables in memory. -/
def EntryCb.inMemory (cb : EntryCb σ) : WalkCb (σ × Vm) := fun slot va state =>
  let outcome := cb va (state.2.mem slot.dir slot.index) state.1
  (some outcome.1, outcome.2.2, state.2.setPte slot outcome.2.1)

/-- The numbers of the pages from one address to another. -/
def pagesBetween (startVa endVa : Nat) : List Nat :=
  List.range' (startVa % 2 ^ 48 / 4096) (endVa % 2 ^ 48 / 4096 + 1 - startVa % 2 ^ 48 / 4096)

def walkPages (cb : EntryCb σ) (base : Nat) : List Nat → σ × PageTable → Int × σ × PageTable
  | [], state => (0, state)
  | page :: rest, (own, table) =>
      if table page = 0 then walkPages cb base rest (own, table)
      else
        let outcome := cb (base + page * 4096) (table page) own
        let state := (outcome.2.2, table.set page outcome.2.1)
        if outcome.1 = 0 then walkPages cb base rest state else (outcome.1, state)

/-- `dune_vm_page_walk` over the entries of a root without big pages. -/
def tableWalk (cb : EntryCb σ) (startVa endVa : Nat) (state : σ × PageTable) : Int × σ × PageTable :=
  walkPages cb (startVa / 2 ^ 48 * 2 ^ 48) (pagesBetween startVa endVa) state

theorem mem_pagesBetween {startVa endVa page : Nat} : page ∈ pagesBetween startVa endVa ↔
    startVa % 2 ^ 48 / 4096 ≤ page ∧ page ≤ endVa % 2 ^ 48 / 4096 := by
  rw [pagesBetween, List.mem_range'_1]
  omega

theorem page_bound {startVa endVa page : Nat} (member : page ∈ pagesBetween startVa endVa) :
    page < 2 ^ 36 := by
  have last := (mem_pagesBetween.mp member).2
  have canonical := Nat.mod_lt endVa (show 0 < 2 ^ 48 by decide)
  omega

/-! Walks over a page table. -/

section Tables

variable {base page : Nat} {pages : List Nat} {own : σ} {table : PageTable}

/-- A walk whose function rewrites entries and does nothing else. -/
theorem walkPages_rewrites {cb : EntryCb σ} {word : Nat → Ptent → Ptent}
    (rewrites : ∀ va pte own, cb va pte own = (0, word va pte, own)) (nodup : pages.Nodup) :
    walkPages cb base pages (own, table) = (0, own, fun page =>
      if page ∈ pages ∧ table page ≠ 0 then word (base + page * 4096) (table page) else table page) := by
  induction pages generalizing table with
  | nil => simp [walkPages]
  | cons first rest ih =>
      obtain ⟨notAgain, restNodup⟩ := List.nodup_cons.mp nodup
      rw [walkPages, rewrites]
      by_cases blank : table first = 0
      · rw [if_pos blank, ih restNodup]
        congr 2
        funext page
        by_cases isFirst : page = first
        · simp [isFirst, blank]
        · simp [isFirst]
      · rw [if_neg blank]
        simp only [if_true]
        rw [ih restNodup]
        congr 2
        funext page
        by_cases isFirst : page = first
        · subst isFirst
          rw [if_neg (by simp [notAgain]), if_pos ⟨by simp, blank⟩, PageTable.set, if_pos rfl]
        · simp [isFirst, PageTable.set]

/-- A function of a walk that does not look at the address and never stops the walk. -/
def EntryCb.steady (turn : Ptent → σ → Ptent × σ) : EntryCb σ := fun _ pte own => (0, turn pte own)

/-- One call of it. -/
def pageTurn (turn : Ptent → σ → Ptent × σ) (state : σ × PageTable) (page : Nat) : σ × PageTable :=
  if state.2 page = 0 then state
  else ((turn (state.2 page) state.1).2, state.2.set page (turn (state.2 page) state.1).1)

theorem walkPages_steady (turn : Ptent → σ → Ptent × σ) (state : σ × PageTable) :
    walkPages (EntryCb.steady turn) base pages state = (0, pages.foldl (pageTurn turn) state) := by
  induction pages generalizing state with
  | nil => rfl
  | cons page rest ih =>
      obtain ⟨own, table⟩ := state
      rw [walkPages, List.foldl_cons, pageTurn]
      by_cases blank : table page = 0
      · rw [if_pos blank, if_pos blank, ih]
      · rw [if_neg blank, if_neg blank]
        exact ih _

end Tables

/-! The visits of a walk, in the order of their addresses. -/

section Order

variable {mem : PhysAddr → Nat → Ptent} {level startVa endVa index : Nat} {dir : PhysAddr} {visit : Visit}

theorem VisitAt.address_bounds {slot : PteRef} {va low offset : Nat}
    (at_ : VisitAt mem level dir startVa endVa slot va low offset) :
    blockStart level startVa ≤ va ∧ va < blockStart level startVa + entrySpan (level + 1) := by
  have floor := Nat.div_mul_le_self offset (entrySpan low)
  have inside := at_.inside
  rw [at_.address]
  omega

theorem turn_address (bound : level ≤ 3)
    (member : visit ∈ turnVisits mem (level + 1) (visits mem level) dir startVa endVa index) :
    curVa (level + 1) startVa index ≤ visit.2 ∧ visit.2 < curVa (level + 1) startVa (index + 1) := by
  have pos := entrySpan_pos (level + 1)
  have next : curVa (level + 1) startVa (index + 1) =
      curVa (level + 1) startVa index + entrySpan (level + 1) := by
    rw [curVa_block, curVa_block, Nat.succ_mul]
    omega
  unfold turnVisits at member
  split at member
  · obtain rfl := List.mem_singleton.mp member
    exact ⟨Nat.le_refl _, by omega⟩
  · split at member
    · obtain ⟨slot, va⟩ := visit
      obtain ⟨low, offset, at_⟩ := (mem_visits_iff bound).mp member
      have bounds := at_.address_bounds
      rw [blockStart_below] at bounds
      rw [next, curVa_block]
      exact bounds
    · simp at member

theorem curVa_mono {first second : Nat} (order : first ≤ second) :
    curVa level startVa first ≤ curVa level startVa second := by
  have scaled := Nat.mul_le_mul_right (entrySpan level) order
  rw [curVa_block, curVa_block]
  omega

theorem visits_sorted (bound : level ≤ 3) (dir : PhysAddr) (startVa endVa : Nat) :
    (visits mem level dir startVa endVa).Pairwise fun first second => first.2 < second.2 := by
  have ordered : (walkIndices level startVa endVa).Pairwise (· < ·) := List.pairwise_lt_range'
  induction level generalizing dir startVa endVa with
  | zero =>
      rw [visits, List.pairwise_flatMap]
      refine ⟨fun index _ => ?_, ordered.imp ?_⟩
      · split <;> simp
      · intro first second less one oneIn two twoIn
        have pos := entrySpan_pos 0
        have scaled := Nat.mul_lt_mul_of_pos_right less pos
        split at oneIn <;> split at twoIn <;> simp_all [curVa_block]
  | succ level ih =>
      rw [visits, List.pairwise_flatMap]
      refine ⟨fun index _ => ?_, ordered.imp ?_⟩
      · unfold turnVisits
        split
        · simp
        · split
          · exact ih (by omega) _ _ _ List.pairwise_lt_range'
          · simp
      · intro first second less one oneIn two twoIn
        have before := (turn_address (by omega) oneIn).2
        have after := (turn_address (by omega) twoIn).1
        have between : curVa (level + 1) startVa (first + 1) ≤ curVa (level + 1) startVa second :=
          curVa_mono less
        omega

end Order

/-! Roots without big pages. -/

section Plain

variable {mem : PhysAddr → Nat → Ptent} {root : PhysAddr} {page startVa endVa : Nat}

/-- The visit for the entry of a page. -/
def pageVisit (mem : PhysAddr → Nat → Ptent) (root : PhysAddr) (base page : Nat) : Option Visit :=
  match leafTable mem root (page * 4096) with
  | some dir =>
      if mem dir (pdx 0 (page * 4096)) ≠ 0 then some (⟨dir, pdx 0 (page * 4096)⟩, base + page * 4096)
      else none
  | none => none

theorem pageVisit_some {base : Nat} {slot : PteRef} {va : Nat} :
    pageVisit mem root base page = some (slot, va) ↔
      leafTable mem root (page * 4096) = some slot.dir ∧ slot.index = pdx 0 (page * 4096) ∧
        mem slot.dir slot.index ≠ 0 ∧ va = base + page * 4096 := by
  obtain ⟨dir, index⟩ := slot
  unfold pageVisit
  cases leads : leafTable mem root (page * 4096) with
  | none => simp
  | some leaf =>
      by_cases word : mem leaf (pdx 0 (page * 4096)) = 0
      · simp only [word, ne_eq, not_true_eq_false, if_false, reduceCtorEq, Option.some.injEq, false_iff]
        rintro ⟨rfl, rfl, nonzero, _⟩
        exact nonzero word
      · simp only [word, ne_eq, not_false_eq_true, if_true, Option.some.injEq, Prod.mk.injEq,
          PteRef.mk.injEq]
        constructor
        · rintro ⟨⟨rfl, rfl⟩, rfl⟩
          exact ⟨rfl, rfl, word, rfl⟩
        · rintro ⟨rfl, rfl, _, rfl⟩
          exact ⟨⟨rfl, rfl⟩, rfl⟩

theorem pageTable_leads {dir : PhysAddr} (bound : page < 2 ^ 36)
    (leads : leafTable mem root (page * 4096) = some dir) :
    pageTable mem root page = mem dir (pdx 0 (page * 4096)) := by
  rw [pageTable, if_pos bound]
  exact wordAt_of_reach leads

theorem pageVisit_none (base : Nat) (bound : page < 2 ^ 36) :
    pageVisit mem root base page = none ↔ pageTable mem root page = 0 := by
  unfold pageVisit
  cases leads : leafTable mem root (page * 4096) with
  | none =>
      have word : leafWord mem root (page * 4096) = 0 := wordAt_of_broken leads
      simp [pageTable, word]
  | some dir =>
      rw [pageTable_leads bound leads]
      simp

theorem Plain.visit_level {low offset : Nat} {slot : PteRef} {va : Nat}
    (plain : Forest entryTable mem [treeOf root])
    (at_ : VisitAt mem 3 root startVa endVa slot va low offset) : low = 0 := by
  cases low with
  | zero => rfl
  | succ low =>
      have inside : (treeOf root).Table mem (low + 1) slot.dir :=
        tableAt_within (fun step => pdx_bound step offset) at_.table
      have bound : slot.index < nptentries := at_.index ▸ pdx_bound _ offset
      have entry := plain.entries (treeOf root) (by simp) low slot.dir slot.index inside bound
      have word := at_.word
      simp [visitedWord, bigSlot, entry.small] at word

theorem mem_visits_plain (plain : Forest entryTable mem [treeOf root]) (visit : Visit) :
    visit ∈ visits mem 3 root startVa endVa ↔
      ∃ page ∈ pagesBetween startVa endVa, pageVisit mem root (startVa / 2 ^ 48 * 2 ^ 48) page = some visit := by
  obtain ⟨slot, va⟩ := visit
  have span : entrySpan (3 + 1) = 2 ^ 48 := rfl
  have page_size : entrySpan 0 = 4096 := entrySpan_zero
  rw [mem_visits_iff (by decide)]
  constructor
  · rintro ⟨low, offset, at_⟩
    obtain rfl := Plain.visit_level plain at_
    have route : ∀ step, pdx step (offset / 4096 * 4096) = pdx step offset :=
      fun step => pdx_same_page (by omega) step
    have first := at_.first
    have last := at_.last
    have address := at_.address
    have leads := at_.table
    have word := at_.word
    rw [span, page_size] at first last
    rw [page_size, blockStart, span] at address
    rw [tableAt_zero] at leads
    refine ⟨offset / 4096, mem_pagesBetween.mpr ⟨first, last⟩, pageVisit_some.mpr ⟨?_, ?_, ?_, address⟩⟩
    · simp only [leafTable, route]
      exact leads
    · rw [at_.index, route]
    · simpa [visitedWord] using word
  · rintro ⟨page, inRange, isVisit⟩
    obtain ⟨leads, index, nonzero, address⟩ := pageVisit_some.mp isVisit
    obtain ⟨first, last⟩ := mem_pagesBetween.mp inRange
    have bound := page_bound inRange
    have number : page * 4096 / 4096 = page := by omega
    refine ⟨0, page * 4096, ?_, ?_, index, ?_, ?_, ?_, ?_⟩
    · rw [span]
      omega
    · rw [tableAt_zero]
      exact leads
    · simpa [visitedWord] using nonzero
    · rw [span, page_size, number]
      exact first
    · rw [span, page_size, number]
      exact last
    · rw [page_size, number, blockStart, span]
      exact address

/-- In a root without big pages a walk visits the entries of its pages in order. -/
theorem visits_plain (plain : Forest entryTable mem [treeOf root]) (startVa endVa : Nat) :
    visits mem 3 root startVa endVa = (pagesBetween startVa endVa).filterMap
      (pageVisit mem root (startVa / 2 ^ 48 * 2 ^ 48)) := by
  have sorted : (visits mem 3 root startVa endVa).Pairwise fun first second => first.2 < second.2 :=
    visits_sorted (by decide) root startVa endVa
  have pagesSorted : ((pagesBetween startVa endVa).filterMap
      (pageVisit mem root (startVa / 2 ^ 48 * 2 ^ 48))).Pairwise
      fun first second => first.2 < second.2 := by
    rw [List.pairwise_filterMap]
    have ordered : (pagesBetween startVa endVa).Pairwise (· < ·) := List.pairwise_lt_range'
    refine ordered.imp ?_
    rintro first second less ⟨_, one⟩ isOne ⟨_, two⟩ isTwo
    obtain ⟨_, _, _, rfl⟩ := pageVisit_some.mp isOne
    obtain ⟨_, _, _, rfl⟩ := pageVisit_some.mp isTwo
    dsimp only
    omega
  have nodup : ∀ {list : List Visit}, list.Pairwise (fun first second => first.2 < second.2) → list.Nodup :=
    fun ordered => ordered.imp fun less same => absurd (congrArg Prod.snd same) (Nat.ne_of_lt less)
  have perm : (visits mem 3 root startVa endVa).Perm ((pagesBetween startVa endVa).filterMap
      (pageVisit mem root (startVa / 2 ^ 48 * 2 ^ 48))) := by
    rw [List.perm_ext_iff_of_nodup (nodup sorted) (nodup pagesSorted)]
    intro visit
    rw [mem_visits_plain plain, List.mem_filterMap]
  exact perm.eq_of_pairwise (fun _ _ _ _ less more => absurd less (Nat.lt_asymm more)) sorted pagesSorted

theorem leafTable_store {leaf : PhysAddr} {index : Nat} (plain : Forest entryTable mem [treeOf root])
    (table : (treeOf root).Table mem 0 leaf) (pte : Ptent) (va : Nat) :
    leafTable (setWord mem leaf index pte) root va = leafTable mem root va := by
  apply reach_congr fun level => pdx_bound level va
  intro low inner inside position _
  have inTree : (treeOf root).Table mem (low + 1) inner := inside
  exact plain.setLeaf_above (by simp) table pte (by simp) inTree position

theorem pageTable_store {slot : PteRef} (plain : Forest entryTable mem [treeOf root])
    (bound : page < 2 ^ 36) (leads : leafTable mem root (page * 4096) = some slot.dir)
    (index : slot.index = pdx 0 (page * 4096)) (pte : Ptent) :
    pageTable (setWord mem slot.dir slot.index pte) root = (pageTable mem root).set page pte := by
  funext other
  rw [PageTable.set, pageTable, pageTable]
  by_cases otherBound : other < 2 ^ 36
  · rw [if_pos otherBound, if_pos otherBound, index,
      leafWord_store plain leads (by omega) (by omega)]
    have same : other * 4096 / 4096 = page * 4096 / 4096 ↔ other = page := by omega
    simp only [same]
  · rw [if_neg otherBound, if_neg otherBound, if_neg (by omega)]

theorem pageVisit_store {slot : PteRef} {other : Nat} (plain : Forest entryTable mem [treeOf root])
    (bound : page < 2 ^ 36) (leads : leafTable mem root (page * 4096) = some slot.dir)
    (index : slot.index = pdx 0 (page * 4096)) (pte : Ptent) (otherBound : other < 2 ^ 36)
    (different : other ≠ page) (base : Nat) :
    pageVisit (setWord mem slot.dir slot.index pte) root base other = pageVisit mem root base other := by
  have way : ∀ va, leafTable (setWord mem slot.dir slot.index pte) root va = leafTable mem root va :=
    leafTable_store plain (leafTable_table rfl leads) pte
  unfold pageVisit
  rw [way]
  cases otherLeads : leafTable mem root (other * 4096) with
  | none => rfl
  | some dir =>
      have word := congrFun (pageTable_store plain bound leads index pte) other
      rw [PageTable.set, if_neg different, pageTable_leads otherBound ((way _).trans otherLeads),
        pageTable_leads otherBound otherLeads] at word
      simp only at word ⊢
      rw [word]

end Plain

/-! The walk in memory and the walk over the page table. -/

/-- What a walk left in memory is what the walk over the page table left. -/
structure OnTable (root : PhysAddr) (inMemory : Option Int × σ × Vm) (onTable : Int × σ × PageTable) :
    Prop where
  result : inMemory.1 = some onTable.1
  own : inMemory.2.1 = onTable.2.1
  table : pageTable inMemory.2.2.mem root = onTable.2.2
  plain : Forest entryTable inMemory.2.2.mem [treeOf root]

section Simulation

variable {cb : EntryCb σ} {root : PhysAddr} {vm : Vm} {own : σ}

theorem visitAll_pages (base : Nat) (pages : List Nat) (nodup : pages.Nodup)
    (bounds : ∀ page ∈ pages, page < 2 ^ 36) (plain : Forest entryTable vm.mem [treeOf root]) :
    OnTable root (visitAll cb.inMemory (pages.filterMap (pageVisit vm.mem root base)) (own, vm))
      (walkPages cb base pages (own, pageTable vm.mem root)) := by
  induction pages generalizing own vm with
  | nil => exact ⟨rfl, rfl, rfl, plain⟩
  | cons page rest ih =>
      obtain ⟨notAgain, restNodup⟩ := List.nodup_cons.mp nodup
      have bound := bounds page (by simp)
      have restBounds : ∀ other ∈ rest, other < 2 ^ 36 := fun other member => bounds other (by simp [member])
      rw [List.filterMap_cons, walkPages]
      cases visited : pageVisit vm.mem root base page with
      | none =>
          rw [if_pos ((pageVisit_none base bound).mp visited)]
          exact ih restNodup restBounds plain
      | some visit =>
          obtain ⟨slot, va⟩ := visit
          obtain ⟨leads, index, nonzero, rfl⟩ := pageVisit_some.mp visited
          have word := pageTable_leads bound leads
          rw [← index] at word
          have member : treeOf root ∈ [treeOf root] := by simp
          have slotBound : slot.index < nptentries := index ▸ pdx_bound 0 _
          rw [if_neg (by rwa [word]), visitAll, word]
          generalize called : cb (base + page * 4096) (vm.mem slot.dir slot.index) own = outcome
          obtain ⟨result, pte, next⟩ := outcome
          have stored : cb.inMemory slot (base + page * 4096) (own, vm) =
              (some result, next, vm.setPte slot pte) := by
            rw [EntryCb.inMemory, called]
          have nextPlain : Forest entryTable (vm.setPte slot pte).mem [treeOf root] :=
            plain.setLeaf member (leafTable_table rfl leads) slotBound pte
          have nextTable : pageTable (vm.setPte slot pte).mem root = (pageTable vm.mem root).set page pte :=
            pageTable_store plain bound leads index pte
          have sameVisits : rest.filterMap (pageVisit (vm.setPte slot pte).mem root base) =
              rest.filterMap (pageVisit vm.mem root base) := by
            apply List.filterMap_congr
            intro other inRest
            apply pageVisit_store plain bound leads index pte (restBounds other inRest)
            rintro rfl
            exact notAgain inRest
          have further := @ih (vm.setPte slot pte) next restNodup restBounds nextPlain
          rw [nextTable, sameVisits] at further
          rw [stored]
          by_cases zero : result = 0
          · rw [if_pos zero, zero, goOn_zero]
            exact further
          · rw [if_neg zero, goOn_stop (by simpa using zero)]
            exact ⟨rfl, rfl, nextTable, nextPlain⟩

theorem EntryCb.storesOwn (cb : EntryCb σ) : StoresOwn (fun state : σ × Vm => state.2.mem) cb.inMemory := by
  intro slot va state dir index elsewhere
  exact if_neg elsewhere

/-- A walk over a root without big pages is the walk over its page table. -/
theorem pageWalkOf_table (cb : EntryCb σ) (own : σ) (plain : Forest entryTable vm.mem [treeOf root])
    (startVa endVa : Nat) :
    OnTable root
      (pageWalkOf (fun state : σ × Vm => state.2.mem) cb.inMemory 3 root startVa endVa (own, vm))
      (tableWalk cb startVa endVa (own, pageTable vm.mem root)) := by
  have distinct : Distinct vm.mem 3 root := by
    intro page
    have copies_ : occurrences nptentries tableOf vm.mem page (treeOf root).level (treeOf root).root ≤
        copies vm.mem [treeOf root] page := occurrences_le_copies (by simp)
    exact Nat.le_trans copies_ (plain.distinct page)
  have nodup : (pagesBetween startVa endVa).Nodup := by
    rw [pagesBetween]
    exact List.nodup_range'
  rw [pageWalkOf_visits cb.storesOwn (by decide) (own, vm) distinct, visits_plain plain]
  exact visitAll_pages _ _ nodup (fun page member => page_bound member) plain

end Simulation

end RdmaPaging
