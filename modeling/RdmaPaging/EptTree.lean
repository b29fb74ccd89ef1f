import RdmaPaging.EptCore
import RdmaPaging.RadixLeaf

/-!
The tables of an EPT form a tree. Every page that the EPT took and has not freed is one
table of the tree, entries of the lowest level and of the root are never big, and an entry
that is not empty is present.
-/

namespace RdmaPaging

open RadixTree (Within occurrences tally setWord grow leafAt leafFrom tableAt part share)

/-! Entries as words. -/

/-- The flags of an entry are those that were joined to its address. -/
theorem entry_and (page flags mask : Epte) (low : ~~~ 0xfff#64 &&& mask = 0#64) :
    (epteAddr page ||| flags) &&& mask = flags &&& mask := by
  rw [epteAddr, BitVec.and_or_distrib_right, BitVec.and_assoc, low]
  simp

theorem epteAddr_or (page flags : Epte) (outside : epteAddr flags = 0#64) :
    epteAddr (epteAddr page ||| flags) = epteAddr page := by
  simp only [epteAddr] at outside ⊢
  rw [BitVec.and_or_distrib_right, outside, BitVec.and_assoc, BitVec.and_self]
  simp

@[simp] theorem eptePresent_zero : eptePresent 0#64 = false := by decide

theorem eptTable_zero (level : Nat) : eptTable level 0#64 = none := by
  simp [eptTable]

theorem eptTable_entry (page : PageFrame) (level : Nat) :
    eptTable level (epteAddr page.val ||| epteFull) = some page.val := by
  have present : eptePresent (epteAddr page.val ||| epteFull) = true := by
    rw [eptePresent, entry_and _ _ _ (by decide)]
    decide
  have small : epteBig (epteAddr page.val ||| epteFull) = false := by
    rw [epteBig, entry_and _ _ _ (by decide)]
    decide
  rw [eptTable, if_pos present, if_neg (by simp [small]), epteAddr_or _ _ (by decide), page.2]

/-- An entry of a table of level `low` that maps memory. -/
structure LeafEntry (low : Nat) (epte : Epte) : Prop where
  present : eptePresent epte = true
  big : epteBig epte = true ↔ low ≠ 0

theorem LeafEntry.of_flags {low : Nat} (page flags : Epte) (present : eptePresent flags = true)
    (big : epteBig flags = true ↔ low ≠ 0) : LeafEntry low (epteAddr page ||| flags) where
  present := by rwa [eptePresent, entry_and _ _ _ (by decide), ← eptePresent]
  big := by rwa [epteBig, entry_and _ _ _ (by decide), ← epteBig]

theorem LeafEntry.table {low : Nat} {epte : Epte} (leaf : LeafEntry (low + 1) epte)
    (notRoot : low + 1 ≠ 3) : eptTable low epte = none := by
  have big : epteBig epte = true := leaf.big.mpr (by omega)
  rw [eptTable, if_pos leaf.present, if_pos ⟨big, notRoot⟩]

theorem pageFlags_leaf (adEnabled makeWrite : Bool) (page : PhysAddr) :
    LeafEntry 0 (epteAddr page ||| eptLeafFlags adEnabled makeWrite pageFlags) := by
  apply LeafEntry.of_flags <;> cases makeWrite <;> cases adEnabled <;> decide

theorem hugeFlags_leaf (adEnabled makeWrite : Bool) (page : PhysAddr) {low : Nat}
    (huge : low ≠ 0) :
    LeafEntry low (epteAddr page ||| (eptLeafFlags adEnabled makeWrite pageFlags ||| epteSz)) := by
  apply LeafEntry.of_flags
  · cases makeWrite <;> cases adEnabled <;> decide
  · simp only [ne_eq, huge, not_false_eq_true, iff_true]
    cases makeWrite <;> cases adEnabled <;> decide

theorem pfnmapFlags_leaf (adEnabled makeWrite : Bool) (page : PhysAddr) :
    LeafEntry 0 (epteAddr page ||| eptLeafFlags adEnabled makeWrite pfnmapFlags) := by
  apply LeafEntry.of_flags <;> cases makeWrite <;> cases adEnabled <;> decide

/-! The tree. -/

def Ept.Inside (ept : Ept) (low : Nat) (table : PhysAddr) : Prop :=
  Within nptentries eptTable ept.mem 3 ept.root low table

/-- In how many ways a page is reached as a table. -/
def Ept.occurs (ept : Ept) (page : PhysAddr) : Nat :=
  occurrences nptentries eptTable ept.mem page 3 ept.root

/-- The entry of a table of level `low` is empty or present, and big only where the
processor allows it. -/
def Shaped (low : Nat) (epte : Epte) : Prop :=
  epte = 0#64 ∨ eptePresent epte = true ∧ (epteBig epte = true → low = 1 ∨ low = 2)

structure EptTree (ept : Ept) : Prop where
  tables : ∀ page, ept.taken.count page = ept.freed.count page + ept.occurs page
  once : ∀ page, ept.occurs page ≤ 1
  shape : ∀ low table index, ept.Inside low table → index < nptentries →
    Shaped low (ept.mem table index)

theorem LeafEntry.shaped {low : Nat} {epte : Epte} (leaf : LeafEntry low epte) (small : low ≤ 2) :
    Shaped low epte := by
  refine Or.inr ⟨leaf.present, fun big => ?_⟩
  have positive := leaf.big.mp big
  omega

variable {ept : Ept} {low index : Nat} {dir : PhysAddr} {slot : PteRef}

theorem pdx_lt_nptentries (level va : Nat) : pdx level va < nptentries :=
  Nat.mod_lt _ (by decide)

theorem EptTree.empty (tree : EptTree ept) (inside : ept.Inside low dir) (bound : index < nptentries)
    (absent : eptePresent (ept.mem dir index) = false) : ept.mem dir index = 0#64 := by
  rcases tree.shape low dir index inside bound with zero | ⟨present, _⟩
  · exact zero
  · rw [absent] at present
    exact absurd present (by simp)

theorem EptTree.fresh (tree : EptTree ept) {page : PhysAddr}
    (unused : ept.taken.count page = ept.freed.count page) : ept.occurs page = 0 := by
  have balance := tree.tables page
  omega

theorem Ept.newTable_mem (ept : Ept) (slot : PteRef) (page : PhysAddr) :
    (ept.newTable slot page).mem =
      grow ept.mem page 0#64 slot.dir slot.index (epteAddr page ||| epteFull) := rfl

/-- A new table in an empty entry. -/
theorem EptTree.newTable (tree : EptTree ept) (inside : ept.Inside (low + 1) slot.dir)
    (bound : slot.index < nptentries) (zero : ept.mem slot.dir slot.index = 0#64)
    (page : PageFrame) (unused : ept.taken.count page.val = ept.freed.count page.val) :
    EptTree (ept.newTable slot page) := by
  have absent := tree.fresh unused
  have names : ∀ lower, eptTable lower (epteAddr page.val ||| epteFull) = some page.val :=
    eptTable_entry page
  have counts : ∀ other, (ept.newTable slot page).occurs other =
      ept.occurs other + if page.val = other then 1 else 0 := by
    intro other
    rw [Ept.occurs, Ept.occurs, occurrences, occurrences, RadixTree.weigh_eq_tally,
      RadixTree.weigh_eq_tally, Ept.newTable_mem]
    exact inside.tally_grow _ _ bound (tree.once _) absent eptTable_zero (fun _ => ite_self 0)
      (by rw [zero]; exact eptTable_zero low) (ite_self 0) (names low)
  refine ⟨fun other => ?_, fun other => ?_, fun step table index within inTable => ?_⟩
  · have balance := tree.tables other
    rw [counts other]
    simp only [Ept.newTable, Ept.setEpte, List.count_cons, beq_iff_eq]
    omega
  · rw [counts other]
    split
    · rename_i same
      subst same
      omega
    · rw [Nat.add_zero]
      exact tree.once other
  · have apart := inside.ne_absent absent
    rcases Within.of_grow within absent apart eptTable_zero names with before | rfl
    · rw [Ept.newTable_mem, grow, setWord]
      split
      · refine Or.inr ⟨?_, fun big => ?_⟩
        · rw [eptePresent, entry_and _ _ _ (by decide)]
          decide
        · rw [epteBig, entry_and _ _ _ (by decide)] at big
          exact absurd big (by decide)
      · rw [RadixTree.blanked_agree absent before]
        exact tree.shape step table index before inTable
    · left
      rw [Ept.newTable_mem]
      exact RadixTree.grow_page apart index

/-! Stores. -/

/-- Whether an entry holds a reference on a page. -/
def pageRef (page : PhysAddr) (epte : Epte) : Nat :=
  if eptePresent epte ∧ epte &&& eptePfnmap = 0#64 ∧ epteAddr epte = page then 1 else 0

/-- The present entries of any level, PFN mappings apart, that map a page. -/
def Ept.mapped (ept : Ept) (page : PhysAddr) : Nat :=
  tally nptentries eptTable (fun _ _ => 0) (fun _ epte => pageRef page epte) ept.mem 3 ept.root

/-- The part of an entry of a level in `occurs` and in `mapped`. -/
def Ept.occursUnder (ept : Ept) (low : Nat) (epte : Epte) (page : PhysAddr) : Nat :=
  part nptentries eptTable (fun _ other => if other = page then 1 else 0) (fun _ => 0) ept.mem low
    epte

def Ept.mappedUnder (ept : Ept) (low : Nat) (epte : Epte) (page : PhysAddr) : Nat :=
  share nptentries eptTable (fun _ _ => 0) (fun _ epte => pageRef page epte) ept.mem low epte

theorem Ept.occursUnder_leaf {epte : Epte}
    (leaf : ∀ lower, low = lower + 1 → eptTable lower epte = none) (page : PhysAddr) :
    ept.occursUnder low epte page = 0 := by
  cases low with
  | zero => rfl
  | succ low => simp only [Ept.occursUnder, part, leaf low rfl]

theorem Ept.mappedUnder_leaf {epte : Epte}
    (leaf : ∀ lower, low = lower + 1 → eptTable lower epte = none) (page : PhysAddr) :
    ept.mappedUnder low epte page = pageRef page epte := by
  cases low with
  | zero => rfl
  | succ low => simp only [Ept.mappedUnder, share, leaf low rfl]

/-- `after` is `before` with a leaf entry, or none, stored at `slot`; what was below the old
entry is freed. -/
structure Stored (before after : Ept) (low : Nat) (slot : PteRef) (epte : Epte) : Prop where
  mem : after.mem = setWord before.mem slot.dir slot.index epte
  root : after.root = before.root
  taken : after.taken = before.taken
  freed : ∀ page, after.freed.count page =
    before.freed.count page + before.occursUnder low (before.mem slot.dir slot.index) page
  leaf : ∀ lower, low = lower + 1 → eptTable lower epte = none

variable {next : Ept} {epte : Epte}

theorem EptTree.levels (tree : EptTree ept) (inside : ept.Inside low dir) :
    ∀ step, ept.Inside step dir → step = low :=
  fun _ other => other.low_unique inside (tree.once dir)

theorem Stored.occurs (stored : Stored ept next low slot epte) (tree : EptTree ept)
    (inside : ept.Inside low slot.dir) (bound : slot.index < nptentries) (page : PhysAddr) :
    next.occurs page + ept.occursUnder low (ept.mem slot.dir slot.index) page =
      ept.occurs page := by
  have balance := inside.weigh_setWord (fun _ other => if other = page then 1 else 0) (fun _ => 0)
    bound epte (tree.once _)
  have nothing : part nptentries eptTable (fun _ other => if other = page then 1 else 0)
      (fun _ => 0) (setWord ept.mem slot.dir slot.index epte) low epte = 0 := by
    rw [← stored.mem]
    exact Ept.occursUnder_leaf stored.leaf page
  rw [nothing, Nat.add_zero] at balance
  rw [Ept.occurs, stored.mem, stored.root]
  exact balance

theorem Stored.mapped (stored : Stored ept next low slot epte) (tree : EptTree ept)
    (inside : ept.Inside low slot.dir) (bound : slot.index < nptentries) (page : PhysAddr) :
    next.mapped page + ept.mappedUnder low (ept.mem slot.dir slot.index) page =
      ept.mapped page + pageRef page epte := by
  have balance := inside.tally_setWord (fun _ _ => 0) (fun _ epte => pageRef page epte) bound epte
    (tree.once _)
  have new : share nptentries eptTable (fun _ _ => 0) (fun _ epte => pageRef page epte)
      (setWord ept.mem slot.dir slot.index epte) low epte = pageRef page epte := by
    rw [← stored.mem]
    exact Ept.mappedUnder_leaf stored.leaf page
  rw [new] at balance
  rw [Ept.mapped, stored.mem, stored.root]
  exact balance

theorem Stored.inside (stored : Stored ept next low slot epte) (tree : EptTree ept)
    (inside : ept.Inside low slot.dir) {step : Nat} {table : PhysAddr}
    (within : next.Inside step table) : ept.Inside step table := by
  rw [Ept.Inside, stored.mem, stored.root] at within
  exact within.of_leaf (tree.levels inside) stored.leaf

theorem Stored.tree (stored : Stored ept next low slot epte) (tree : EptTree ept)
    (inside : ept.Inside low slot.dir) (bound : slot.index < nptentries)
    (shaped : Shaped low epte) : EptTree next := by
  refine ⟨fun page => ?_, fun page => ?_, fun step table index within inTable => ?_⟩
  · have balance := stored.occurs tree inside bound page
    have before := tree.tables page
    have freed := stored.freed page
    rw [stored.taken]
    omega
  · have balance := stored.occurs tree inside bound page
    have before := tree.once page
    omega
  · have earlier := stored.inside tree inside within
    rw [stored.mem, setWord]
    split
    · rename_i here
      obtain ⟨rfl, rfl⟩ := here
      rw [tree.levels inside step earlier]
      exact shaped
    · exact tree.shape step table index earlier inTable

theorem gpaRoute_lt (gpa level : Nat) : gpaRoute gpa level < nptentries := pdx_lt_nptentries _ _

/-- The table of a level on the way of a guest-physical address. -/
def Ept.tableFor (ept : Ept) (gpa low : Nat) : Option PhysAddr :=
  tableAt eptTable ept.mem (gpaRoute gpa) low 3 ept.root

theorem Stored.leaf_eq (stored : Stored ept next low slot epte) (tree : EptTree ept)
    (inside : ept.Inside low slot.dir) (gpa : Nat) :
    next.leaf gpa = if ept.tableFor gpa low = some slot.dir ∧ pdx low gpa = slot.index then
      if eptePresent epte then some (low, epte) else none
    else ept.leaf gpa := by
  have stop : leafFrom eptTable (setWord ept.mem slot.dir slot.index epte) (gpaRoute gpa) low epte =
      (low, epte) := by
    have leaf := stored.leaf
    cases low with
    | zero => rfl
    | succ low => simp only [leafFrom, leaf low rfl]
  have walk : next.walk gpa =
      if ept.tableFor gpa low = some slot.dir ∧ pdx low gpa = slot.index then (low, epte)
      else ept.walk gpa := by
    rw [Ept.walk, stored.mem, stored.root,
      RadixTree.leafAt_setWord slot.index epte (gpaRoute_lt gpa) (tree.levels inside), stop]
    rfl
  rw [Ept.leaf, walk]
  split <;> rfl

/-! Removal of tables. -/

/-- `after` is `before` after the pages of some tables were freed and some pages put. -/
structure Frees (before after : Ept) (tables pages : PhysAddr → Nat) : Prop where
  mem : after.mem = before.mem
  root : after.root = before.root
  taken : after.taken = before.taken
  freed : ∀ page, after.freed.count page = before.freed.count page + tables page
  refs : ∀ page, after.refs page = before.refs page - pages page

theorem Frees.refl (ept : Ept) : Frees ept ept (fun _ => 0) (fun _ => 0) :=
  ⟨rfl, rfl, rfl, fun _ => rfl, fun _ => by simp⟩

theorem Frees.trans {first second third : Ept} {tables pages laterTables laterPages : PhysAddr → Nat}
    (sooner : Frees first second tables pages) (later : Frees second third laterTables laterPages) :
    Frees first third (fun page => tables page + laterTables page)
      (fun page => pages page + laterPages page) where
  mem := later.mem.trans sooner.mem
  root := later.root.trans sooner.root
  taken := later.taken.trans sooner.taken
  freed := fun page => by
    have one := sooner.freed page
    have two := later.freed page
    omega
  refs := fun page => by
    have one := sooner.refs page
    have two := later.refs page
    push_cast
    omega

theorem Frees.congr {before after : Ept} {tables pages otherTables otherPages : PhysAddr → Nat}
    (frees : Frees before after tables pages) (sameTables : ∀ page, tables page = otherTables page)
    (samePages : ∀ page, pages page = otherPages page) :
    Frees before after otherTables otherPages := by
  rw [← funext sameTables, ← funext samePages]
  exact frees

theorem freeEptPage_frees (ept : Ept) (present : eptePresent epte = true) :
    Frees ept (freeEptPage epte ept) (fun _ => 0) (fun page => pageRef page epte) := by
  unfold freeEptPage
  by_cases pfnmap : epte &&& eptePfnmap ≠ 0
  · rw [if_pos pfnmap]
    refine (Frees.refl ept).congr (fun _ => rfl) (fun page => ?_)
    rw [pageRef, if_neg]
    rintro ⟨_, isZero, _⟩
    exact pfnmap isZero
  · rw [if_neg pfnmap]
    refine ⟨rfl, rfl, rfl, fun _ => rfl, fun page => ?_⟩
    have zero : epte &&& eptePfnmap = 0#64 := by simpa using pfnmap
    simp only [Ept.putPage, Function.update_apply, pageRef, present, zero, true_and]
    by_cases same : page = epteAddr epte
    · rw [if_pos same, if_pos same.symm, same]
      rfl
    · rw [if_neg same, if_neg (Ne.symm same)]
      simp

theorem foldl_frees (mem : PhysAddr → Nat → Epte) (body : Ept → Nat → Ept)
    (tables pages : Nat → PhysAddr → Nat)
    (each : ∀ ept index, ept.mem = mem → Frees ept (body ept index) (tables index) (pages index))
    (count : Nat) (ept : Ept) (same : ept.mem = mem) :
    Frees ept ((List.range count).foldl body ept)
      (fun page => ∑ index ∈ Finset.range count, tables index page)
      (fun page => ∑ index ∈ Finset.range count, pages index page) := by
  induction count with
  | zero => exact Frees.refl ept
  | succ count ih =>
      rw [List.range_succ, List.foldl_append, List.foldl_cons, List.foldl_nil]
      have last := each ((List.range count).foldl body ept) count (ih.mem.trans same)
      refine (ih.trans last).congr (fun page => ?_) (fun page => ?_)
      · rw [Finset.sum_range_succ]
      · rw [Finset.sum_range_succ]

theorem Frees.freePage {before after : Ept} {tables pages : PhysAddr → Nat}
    (frees : Frees before after tables pages) (table : PhysAddr) :
    Frees before (after.freePage table)
      (fun page => (if table = page then 1 else 0) + tables page) pages where
  mem := frees.mem
  root := frees.root
  taken := frees.taken
  freed := fun page => by
    have count := frees.freed page
    simp only [Ept.freePage, List.count_cons, beq_iff_eq]
    omega
  refs := frees.refs

/-- Freeing a table frees the tables of its tree and puts the pages that the tree maps. -/
theorem freeTable_frees (level : Nat) (table : PhysAddr) (ept : Ept) :
    Frees ept (freeTable level table ept)
      (fun page => occurrences nptentries eptTable ept.mem page level table)
      (fun page => tally nptentries eptTable (fun _ _ => 0) (fun _ epte => pageRef page epte)
        ept.mem level table) := by
  induction level generalizing table ept with
  | zero =>
      have loop := foldl_frees ept.mem (fun ept index =>
          if eptePresent (ept.mem table index) then freeEptPage (ept.mem table index) ept else ept)
        (fun _ _ => 0) (fun index page => pageRef page (ept.mem table index))
        (fun other index same => by
          rw [same]
          by_cases present : eptePresent (ept.mem table index) = true
          · rw [if_pos present]
            exact freeEptPage_frees other present
          · rw [if_neg present]
            refine (Frees.refl other).congr (fun _ => rfl) (fun page => ?_)
            rw [pageRef, if_neg (by simp [present])]) nptentries ept rfl
      refine (loop.freePage table).congr (fun page => ?_) (fun page => ?_)
      · rw [occurrences, RadixTree.weigh_eq]
        rfl
      · rw [tally, Nat.zero_add]
  | succ level ih =>
      have loop := foldl_frees ept.mem (fun ept index =>
          if ¬ eptePresent (ept.mem table index) then ept
          else if level + 1 ≠ 3 ∧ epteBig (ept.mem table index) then
            freeEptPage (ept.mem table index) ept
          else freeTable level (epteAddr (ept.mem table index)) ept)
        (fun index page => ept.occursUnder (level + 1) (ept.mem table index) page)
        (fun index page => ept.mappedUnder (level + 1) (ept.mem table index) page)
        (fun other index same => by
          rw [same]
          by_cases present : eptePresent (ept.mem table index) = true
          · rw [if_neg (by simp [present])]
            by_cases leaf : level + 1 ≠ 3 ∧ epteBig (ept.mem table index) = true
            · have none : eptTable level (ept.mem table index) = none := by
                rw [eptTable, if_pos present, if_pos ⟨leaf.2, leaf.1⟩]
              rw [if_pos leaf]
              refine (freeEptPage_frees other present).congr (fun page => ?_) (fun page => ?_)
              · simp only [Ept.occursUnder, part, none]
              · simp only [Ept.mappedUnder, share, none]
            · have some : eptTable level (ept.mem table index) =
                  some (epteAddr (ept.mem table index)) := by
                rw [eptTable, if_pos present, if_neg (fun big => leaf ⟨big.2, big.1⟩)]
              rw [if_neg leaf]
              refine (ih (epteAddr (ept.mem table index)) other).congr (fun page => ?_)
                (fun page => ?_)
              · simp only [Ept.occursUnder, part, some, same, occurrences]
              · simp only [Ept.mappedUnder, share, some, same]
          · have none : eptTable level (ept.mem table index) = none := by
              rw [eptTable, if_neg present]
            rw [if_pos present]
            refine (Frees.refl other).congr (fun page => ?_) (fun page => ?_)
            · simp only [Ept.occursUnder, part, none]
            · simp only [Ept.mappedUnder, share, none, pageRef, present, false_and,
                Bool.false_eq_true, if_false]) nptentries ept rfl
      refine (loop.freePage table).congr (fun page => ?_) (fun page => ?_)
      · rw [occurrences, RadixTree.weigh_eq]
        rfl
      · rw [RadixTree.tally_eq, Nat.zero_add]
        rfl

/-! Clearing an entry. -/

/-- `after` is `before` with the entry at `slot` empty and what it held given back. -/
structure Emptied (before after : Ept) (low : Nat) (slot : PteRef) : Prop where
  stored : Stored before after low slot epteNone
  refs : ∀ page, after.refs page =
    before.refs page - before.mappedUnder low (before.mem slot.dir slot.index) page

theorem epteNone_leaf (lower : Nat) : eptTable lower epteNone = none := eptTable_zero lower

theorem pageRef_zero (page : PhysAddr) : pageRef page 0#64 = 0 := by
  simp [pageRef]

theorem Frees.emptied {after : Ept}
    (frees : Frees ept after (ept.occursUnder low (ept.mem slot.dir slot.index))
      (ept.mappedUnder low (ept.mem slot.dir slot.index))) :
    Emptied ept (after.setEpte slot epteNone) low slot where
  stored := {
    mem := by
      funext table index
      simp only [Ept.setEpte, setWord, frees.mem]
    root := frees.root
    taken := frees.taken
    freed := frees.freed
    leaf := fun lower _ => epteNone_leaf lower }
  refs := frees.refs

/-- An entry that is empty already. -/
theorem emptied_of_zero (zero : ept.mem slot.dir slot.index = 0#64) : Emptied ept ept low slot := by
  have leaf : ∀ lower, low = lower + 1 → eptTable lower 0#64 = none :=
    fun lower _ => eptTable_zero lower
  refine ⟨⟨?_, rfl, rfl, fun page => ?_, leaf⟩, fun page => ?_⟩
  · funext table index
    rw [setWord]
    split
    · rename_i here
      rw [here.1, here.2, zero]
      rfl
    · rfl
  · rw [zero, Ept.occursUnder_leaf leaf, Nat.add_zero]
  · rw [zero, Ept.mappedUnder_leaf leaf, pageRef_zero]
    simp

theorem eptClearEpte_emptied (shaped : Shaped low (ept.mem slot.dir slot.index))
    (leaf : ∀ lower, low = lower + 1 → eptTable lower (ept.mem slot.dir slot.index) = none) :
    Emptied ept (eptClearEpte slot ept).2 low slot := by
  unfold eptClearEpte
  rcases shaped with zero | ⟨present, _⟩
  · rw [if_pos (show _ = epteNone from zero)]
    exact emptied_of_zero zero
  · have nonzero : ept.mem slot.dir slot.index ≠ epteNone := by
      intro zero
      rw [zero] at present
      exact absurd present (by decide)
    rw [if_neg nonzero]
    apply Frees.emptied
    refine (freeEptPage_frees ept present).congr (fun page => ?_) (fun page => ?_)
    · exact (Ept.occursUnder_leaf leaf page).symm
    · exact (Ept.mappedUnder_leaf leaf page).symm

theorem eptClearTableEpte_emptied
    (names : eptTable low (ept.mem slot.dir slot.index) =
      some (epteAddr (ept.mem slot.dir slot.index))) :
    Emptied ept (eptClearTableEpte low slot ept).2 (low + 1) slot := by
  unfold eptClearTableEpte
  have nonzero : ept.mem slot.dir slot.index ≠ epteNone := by
    intro zero
    rw [zero, epteNone_leaf] at names
    exact absurd names (by simp)
  rw [if_neg nonzero]
  apply Frees.emptied
  refine (freeTable_frees low _ ept).congr (fun page => ?_) (fun page => ?_)
  · simp only [Ept.occursUnder, part, names, occurrences]
  · simp only [Ept.mappedUnder, share, names]

/-- A fault empties the entry of the level of its page, whatever the entry holds. -/
theorem eptClearOld_emptied (tree : EptTree ept) (small : low ≤ 2)
    (inside : ept.Inside low slot.dir) (bound : slot.index < nptentries) :
    Emptied ept (eptClearOld low slot ept) low slot := by
  have shaped := tree.shape low slot.dir slot.index inside bound
  unfold eptClearOld
  by_cases present : eptePresent (ept.mem slot.dir slot.index) = true
  · rw [if_pos present]
    by_cases big : epteBig (ept.mem slot.dir slot.index) = true
    · rw [if_neg (by simp [big]), if_neg (by simp [big])]
      apply eptClearEpte_emptied shaped
      rintro lower rfl
      rw [eptTable, if_pos present, if_pos ⟨big, by omega⟩]
    · have names : ∀ lower, eptTable lower (ept.mem slot.dir slot.index) =
          some (epteAddr (ept.mem slot.dir slot.index)) := by
        intro lower
        rw [eptTable, if_pos present, if_neg (by simp [big])]
      by_cases two : low = 2
      · subst two
        rw [if_pos ⟨by simp [big], rfl⟩]
        exact eptClearTableEpte_emptied (names 1)
      · rw [if_neg (by simp [two])]
        by_cases one : low = 1
        · subst one
          rw [if_pos ⟨by simp [big], rfl⟩]
          exact eptClearTableEpte_emptied (names 0)
        · rw [if_neg (by simp [one])]
          apply eptClearEpte_emptied shaped
          intro lower isLevel
          omega
  · rw [if_neg present]
    exact emptied_of_zero (tree.empty inside bound (by simpa using present))

/-! The lookup. -/

/-- `after` is `before` with new empty tables. -/
structure Grown (before after : Ept) : Prop where
  tree : EptTree after
  root : after.root = before.root
  refs : after.refs = before.refs
  leaf : ∀ gpa, after.leaf gpa = before.leaf gpa
  mapped : ∀ page, after.mapped page = before.mapped page

theorem Grown.refl (tree : EptTree ept) : Grown ept ept :=
  ⟨tree, rfl, rfl, fun _ => rfl, fun _ => rfl⟩

theorem Grown.trans {first second third : Ept} (sooner : Grown first second)
    (later : Grown second third) : Grown first third where
  tree := later.tree
  root := later.root.trans sooner.root
  refs := later.refs.trans sooner.refs
  leaf := fun gpa => (later.leaf gpa).trans (sooner.leaf gpa)
  mapped := fun page => (later.mapped page).trans (sooner.mapped page)

theorem newTable_grown (tree : EptTree ept) (inside : ept.Inside (low + 1) slot.dir)
    (bound : slot.index < nptentries) (zero : ept.mem slot.dir slot.index = 0#64)
    (page : PageFrame) (unused : ept.taken.count page.val = ept.freed.count page.val) :
    Grown ept (ept.newTable slot page) := by
  have absent := tree.fresh unused
  refine ⟨tree.newTable inside bound zero page unused, rfl, rfl, fun gpa => ?_, fun other => ?_⟩
  · have walk : (ept.newTable slot page).walk gpa =
        if ept.tableFor gpa (low + 1) = some slot.dir ∧ pdx (low + 1) gpa = slot.index
        then (low, 0#64) else ept.walk gpa :=
      RadixTree.leafAt_grow slot.index (gpaRoute_lt gpa) inside (tree.once _) absent eptTable_zero
        (eptTable_entry page low)
    rw [Ept.leaf, walk]
    by_cases through : ept.tableFor gpa (low + 1) = some slot.dir ∧ pdx (low + 1) gpa = slot.index
    · have before : ept.walk gpa = (low + 1, 0#64) := by
        rw [Ept.walk, RadixTree.leafAt_of_tableAt through.1, RadixTree.leafAt_eq]
        change leafFrom eptTable ept.mem (gpaRoute gpa) (low + 1)
          (ept.mem slot.dir (pdx (low + 1) gpa)) = _
        rw [through.2, zero]
        simp only [leafFrom, eptTable_zero]
      rw [if_pos through, Ept.leaf, before]
      simp
    · rw [if_neg through, Ept.leaf]
  · have balance : (ept.newTable slot page).mapped other = ept.mapped other + 0 :=
      inside.tally_grow (fun _ _ => 0) (fun _ epte => pageRef other epte) bound (tree.once _) absent
        eptTable_zero (fun _ => pageRef_zero other) (by rw [zero]; exact eptTable_zero low)
        (by rw [zero]; exact pageRef_zero other) (eptTable_entry page low)
    rwa [Nat.add_zero] at balance

/-- The pages that are left for the entries up to a level. -/
def Unused (ept : Ept) (supply : Supply) (level : Nat) : Prop :=
  ∀ step ≤ level, ∀ page, supply step = some page →
    ept.taken.count page.val = ept.freed.count page.val

variable {supply : Supply} {gpa : Nat}

theorem Ept.tableFor_inside (leads : ept.tableFor gpa low = some dir) : ept.Inside low dir :=
  RadixTree.tableAt_within (gpaRoute_lt gpa) leads

theorem newTable_unused {page : PageFrame} {level : Nat}
    (apart : ∀ level other page, supply level = some page → supply other = some page →
      level = other)
    (taken : supply (level + 1) = some page) (unused : Unused ept supply (level + 1)) :
    Unused (ept.newTable slot page) supply level := by
  intro step bound other supplied
  have before := unused step (by omega) other supplied
  have different : page.val ≠ other.val := by
    intro same
    rw [← Subtype.ext same] at supplied
    have sameLevel := apart _ _ _ taken supplied
    omega
  simp only [Ept.newTable, Ept.setEpte, List.count_cons, beq_iff_eq, if_neg different]
  exact before

/-- One entry on the way of a lookup that makes tables. -/
theorem eptEnter_grown {level : Nat} (tree : EptTree ept)
    (leads : ept.tableFor gpa (level + 1) = some dir)
    (unused : Unused ept supply (level + 1))
    (apart : ∀ level other page, supply level = some page → supply other = some page →
      level = other) :
    let entered := eptEnter supply true (level + 1) ⟨dir, pdx (level + 1) gpa⟩ ept
    Grown ept entered.2 ∧ (entered.1 = .ok () →
      entered.2.tableFor gpa (level + 1) = some dir ∧
        eptePresent (entered.2.mem dir (pdx (level + 1) gpa)) = true ∧
        Unused entered.2 supply level) := by
  have inside := Ept.tableFor_inside leads
  intro entered
  by_cases present : eptePresent (ept.mem dir (pdx (level + 1) gpa)) = true
  · have same : entered = (.ok (), ept) := if_pos present
    rw [same]
    exact ⟨Grown.refl tree, fun _ => ⟨leads, present, fun step bound => unused step (by omega)⟩⟩
  · have zero := tree.empty inside (pdx_lt_nptentries _ _) (by simpa using present)
    rcases supplied : supply (level + 1) with _ | page
    · have failed : entered = (.error (-enomem), ept) := by
        simp only [entered, eptEnter, if_neg present, supplied]
        rfl
      rw [failed]
      exact ⟨Grown.refl tree, fun ok => absurd ok (by simp)⟩
    · have made : entered = (.ok (), ept.newTable ⟨dir, pdx (level + 1) gpa⟩ page) := by
        simp only [entered, eptEnter, if_neg present, supplied]
        rfl
      have fresh := unused _ (Nat.le_refl _) page supplied
      have absent := tree.fresh fresh
      rw [made]
      refine ⟨newTable_grown tree inside (pdx_lt_nptentries _ _) zero page fresh, fun _ =>
        ⟨?_, ?_, newTable_unused apart supplied unused⟩⟩
      · refine RadixTree.tableAt_mono (gpaRoute_lt gpa) leads ?_
        intro lower other position below within _ points
        refine RadixTree.grow_keeps absent ?_ lower other position below within points
        intro step
        rw [zero]
        exact eptTable_zero step
      · have entry : (ept.newTable ⟨dir, pdx (level + 1) gpa⟩ page).mem dir
            (pdx (level + 1) gpa) = epteAddr page.val ||| epteFull := by
          simp [Ept.newTable, Ept.setEpte]
        rw [entry, eptePresent, entry_and _ _ _ (by decide)]
        decide

/-- A lookup that makes tables finds the entry of its level or fails, and changes nothing
that is mapped. -/
theorem eptLookupFrom_grown (gpa : PhysAddr) (level i : Nat) (dir : PhysAddr) (ept : Ept)
    (tree : EptTree ept) (above : level ≤ i) (leads : ept.tableFor gpa.toNat i = some dir)
    (unused : Unused ept supply i)
    (apart : ∀ level other page, supply level = some page → supply other = some page →
      level = other) :
    let result := eptLookupFrom supply true gpa level i dir ept
    Grown ept result.2 ∧ ∀ slot, result.1 = .ok slot →
      slot.index = pdx level gpa.toNat ∧ result.2.tableFor gpa.toNat level = some slot.dir := by
  induction i generalizing dir ept with
  | zero =>
      obtain rfl : level = 0 := by omega
      refine ⟨Grown.refl tree, ?_⟩
      rintro slot ⟨⟩
      exact ⟨rfl, leads⟩
  | succ i ih =>
      by_cases deeper : level < i + 1
      · obtain ⟨grown, entered⟩ := eptEnter_grown tree leads unused apart
        rw [eptLookupFrom, if_pos deeper]
        rcases result : eptEnter supply true (i + 1) ⟨dir, pdx (i + 1) gpa.toNat⟩ ept with
          ⟨ret | ⟨⟨⟩⟩, next⟩
        · rw [result] at grown
          exact ⟨grown, fun slot ok => absurd ok (by simp)⟩
        · rw [result] at grown entered
          obtain ⟨nextLeads, present, nextUnused⟩ := entered rfl
          dsimp only at grown nextLeads present nextUnused ⊢
          by_cases big : epteBig (next.mem dir (pdx (i + 1) gpa.toNat)) = true
          · rw [if_pos big, if_pos (show i + 1 ≠ 1 ∨ i + 1 ≠ 2 by omega)]
            exact ⟨grown, fun slot ok => absurd ok (by simp)⟩
          · have names : eptTable i (next.mem dir (pdx (i + 1) gpa.toNat)) =
                some (epteAddr (next.mem dir (pdx (i + 1) gpa.toNat))) := by
              rw [eptTable, if_pos present, if_neg (by simp [big])]
            rw [if_neg big]
            obtain ⟨later, found⟩ := ih _ next grown.tree (by omega)
              (RadixTree.tableAt_step nextLeads names) nextUnused
            exact ⟨grown.trans later, found⟩
      · obtain rfl : level = i + 1 := by omega
        rw [eptLookupFrom, if_neg deeper]
        refine ⟨Grown.refl tree, ?_⟩
        rintro slot ⟨⟩
        exact ⟨rfl, leads⟩

theorem eptLookupGpa_grown (gpa : PhysAddr) {level : Nat} (tree : EptTree ept) (small : level ≤ 3)
    (fresh : Fresh ept supply) :
    let result := eptLookupGpa supply gpa level true ept
    Grown ept result.2 ∧ ∀ slot, result.1 = .ok slot →
      slot.index = pdx level gpa.toNat ∧ result.2.tableFor gpa.toNat level = some slot.dir :=
  eptLookupFrom_grown gpa level 3 ept.root ept tree small (RadixTree.tableAt_self 3 ept.root)
    (fun step _ page supplied => fresh.unused step page supplied) fresh.apart

/-- The outcome of a lookup of level 0 that makes no tables. -/
def foundSlot (gpa : Nat) (ret : Int) : Option PhysAddr → Except Int PteRef
  | some table => .ok ⟨table, pdx 0 gpa⟩
  | none => .error ret

/-- A lookup of level 0 that makes no tables finds the entry if the way leads so far. -/
theorem eptLookupFrom_read (supply : Supply) (gpa : PhysAddr) (i : Nat) (dir : PhysAddr)
    (tree : EptTree ept) (inside : ept.Inside i dir) :
    ∃ ret, eptLookupFrom supply false gpa 0 i dir ept = (foundSlot gpa.toNat ret
      (tableAt eptTable ept.mem (gpaRoute gpa.toNat) 0 i dir), ept) := by
  induction i generalizing dir with
  | zero => exact ⟨0, rfl⟩
  | succ i ih =>
      have bound := pdx_lt_nptentries (i + 1) gpa.toNat
      have positive : ¬ 0 = i + 1 := by omega
      rw [eptLookupFrom, if_pos (Nat.succ_pos i)]
      simp only [tableAt, if_neg positive]
      by_cases present : eptePresent (ept.mem dir (pdx (i + 1) gpa.toNat)) = true
      · have entered : eptEnter supply false (i + 1) ⟨dir, pdx (i + 1) gpa.toNat⟩ ept =
            (.ok (), ept) := if_pos present
        rw [entered]
        dsimp only
        by_cases big : epteBig (ept.mem dir (pdx (i + 1) gpa.toNat)) = true
        · have low : i + 1 = 1 ∨ i + 1 = 2 := by
            rcases tree.shape _ _ _ inside bound with zero | ⟨_, allowed⟩
            · rw [zero] at big
              exact absurd big (by decide)
            · exact allowed big
          have leaf : eptTable i (ept.mem dir (pdx (i + 1) gpa.toNat)) = none := by
            rw [eptTable, if_pos present, if_pos ⟨big, by omega⟩]
          rw [if_pos big, if_pos (show i + 1 ≠ 1 ∨ i + 1 ≠ 2 by omega)]
          refine ⟨-einval, ?_⟩
          rw [gpaRoute, leaf]
          rfl
        · have names : eptTable i (ept.mem dir (pdx (i + 1) gpa.toNat)) =
              some (epteAddr (ept.mem dir (pdx (i + 1) gpa.toNat))) := by
            rw [eptTable, if_pos present, if_neg (by simp [big])]
          rw [if_neg big]
          obtain ⟨ret, found⟩ := ih _ (inside.step bound names)
          refine ⟨ret, ?_⟩
          rw [found, gpaRoute, names]
      · have entered : eptEnter supply false (i + 1) ⟨dir, pdx (i + 1) gpa.toNat⟩ ept =
            (.error (-enoent), ept) := by
          simp only [eptEnter, if_neg present]
          rfl
        have leaf : eptTable i (ept.mem dir (pdx (i + 1) gpa.toNat)) = none := by
          rw [eptTable, if_neg present]
        rw [entered]
        refine ⟨-enoent, ?_⟩
        rw [gpaRoute, leaf]
        rfl

theorem eptLookupGpa_read (supply : Supply) (gpa : PhysAddr) (tree : EptTree ept) :
    ∃ ret, eptLookupGpa supply gpa 0 false ept =
      (foundSlot gpa.toNat ret (ept.tableFor gpa.toNat 0), ept) :=
  eptLookupFrom_read supply gpa 3 ept.root tree (.here 3 ept.root)

end RdmaPaging
