import Mathlib.Data.List.TakeWhile
import RdmaPaging.SthreadCore
import RdmaPaging.VmLeaves

/-!
What an sthread reaches. The passes of `create_new_sthread` are followed on the page table of
the clone: an entry that the last one leaves user-accessible is of a recorded segment, of the
stack, or of a granted tag.
-/

namespace RdmaPaging

open RadixTree

/-- The canonical address of an offset into the 48-bit address space. -/
def canonicalVa (va : Nat) : Nat := if va < 2 ^ 47 then va else va + (2 ^ 64 - 2 ^ 48)

/-- The grants of a tag in a context. -/
def Sc.granting (sc : Sc) (tag : Tag) : List (BitVec 64) :=
  sc.grants.filter fun word => grantStart word = BitVec.ofNat 64 tag.buf

/-- The writable pages of the segments, in the order of the walks over them. -/
def writablePages (segments : List Segment) : List Nat :=
  (segments.filter Segment.writable).flatMap fun seg => pagesBetween seg.start (seg.stop - 4096)

/-! Walks over the tables of a root without big pages. -/

section Memory

variable {σ : Type} {cb : EntryCb σ} {root : PhysAddr} {vm : Vm} {own : σ}

/-- The state of a walk in memory, seen as a page table. -/
structure Shows (root : PhysAddr) (inMemory : σ × Vm) (onTable : σ × PageTable) : Prop where
  own : inMemory.1 = onTable.1
  table : pageTable inMemory.2.mem root = onTable.2
  plain : Forest entryTable inMemory.2.mem [treeOf root]

theorem memoryWalk_shows (cb : EntryCb σ) {inMemory : σ × Vm} {onTable : σ × PageTable}
    (shows_ : Shows root inMemory onTable) (startVa endVa : Nat) :
    Shows root (memoryWalk cb root startVa endVa inMemory) (tableWalk cb startVa endVa onTable).2 := by
  obtain ⟨own, vm⟩ := inMemory
  obtain ⟨ownThere, table⟩ := onTable
  obtain ⟨rfl, rfl, plain⟩ := shows_
  have walked := pageWalkOf_table cb own plain startVa endVa
  exact ⟨walked.own, walked.table, walked.plain⟩

theorem eachWritable_shows (cb : EntryCb σ) (segments : List Segment) {inMemory : σ × Vm} {onTable : σ × PageTable}
    (shows_ : Shows root inMemory onTable) :
    Shows root (eachWritable (memoryWalk cb root) segments inMemory)
      (eachWritable (fun startVa endVa state => (tableWalk cb startVa endVa state).2) segments onTable) := by
  induction segments generalizing inMemory onTable with
  | nil => exact shows_
  | cons seg rest ih =>
      simp only [eachWritable, List.foldl_cons] at ih ⊢
      split
      · exact ih (memoryWalk_shows cb shows_ _ _)
      · exact ih shows_

theorem eachWritable_pages (turn : Ptent → σ → Ptent × σ) (segments : List Segment) (state : σ × PageTable) :
    eachWritable (fun startVa endVa state => (tableWalk (EntryCb.steady turn) startVa endVa state).2)
      segments state = (writablePages segments).foldl (pageTurn turn) state := by
  induction segments generalizing state with
  | nil => rfl
  | cons seg rest ih =>
      rw [eachWritable, List.foldl_cons, writablePages, List.filter_cons]
      split
      · rename_i writable
        rw [tableWalk, walkPages_steady, List.flatMap_cons, List.foldl_append]
        exact ih _
      · exact ih _

end Memory

/-! Addresses. -/

section Addresses

variable {page va : Nat}

theorem canonicalVa_page (canonical : va < 2 ^ 48) :
    canonicalVa va = canonicalVa (va / 4096 * 4096) + va % 4096 := by
  unfold canonicalVa
  split <;> split <;> omega

theorem Segment.covers_page (seg : Segment) (canonical : va < 2 ^ 48) :
    seg.covers (canonicalVa va) = seg.covers (canonicalVa (va / 4096 * 4096)) := by
  have startAligned := seg.startAligned
  have stopAligned := seg.stopAligned
  have split := canonicalVa_page canonical
  have aligned : canonicalVa (va / 4096 * 4096) % 4096 = 0 := by
    unfold canonicalVa
    split <;> omega
  unfold Segment.covers
  rw [decide_eq_decide]
  omega

/-- `walk_protect` compares the address of an entry as it is. The addresses of the upper half
that a walk makes are in no segment. -/
theorem Segment.covers_raw (seg : Segment) (canonical : va < 2 ^ 48) (covers : seg.covers va = true) :
    va < 2 ^ 47 := by
  have half := seg.canonical
  rw [Segment.covers, decide_eq_true_eq] at covers
  omega

theorem Segment.mem_pages (seg : Segment) (bound : page < 2 ^ 36) :
    page ∈ pagesBetween seg.start (seg.stop - 4096) ↔ seg.covers (canonicalVa (page * 4096)) = true := by
  have startAligned := seg.startAligned
  have stopAligned := seg.stopAligned
  have ordered := seg.ordered
  have half := seg.canonical
  rw [mem_pagesBetween, Segment.covers, decide_eq_true_eq, canonicalVa]
  split <;> omega

theorem mem_writablePages {segments : List Segment} (bound : page < 2 ^ 36) :
    page ∈ writablePages segments ↔ ∃ seg ∈ segments, seg.writable = true ∧
      seg.covers (canonicalVa (page * 4096)) = true := by
  rw [writablePages, List.mem_flatMap]
  constructor
  · rintro ⟨seg, member, inSeg⟩
    obtain ⟨recorded, writable⟩ := List.mem_filter.mp member
    exact ⟨seg, recorded, writable, (seg.mem_pages bound).mp inSeg⟩
  · rintro ⟨seg, recorded, writable, covers⟩
    exact ⟨seg, List.mem_filter.mpr ⟨recorded, writable⟩, (seg.mem_pages bound).mpr covers⟩

theorem Segment.pages_length (seg : Segment) :
    4096 * (pagesBetween seg.start (seg.stop - 4096)).length = seg.stop - seg.start := by
  have startAligned := seg.startAligned
  have stopAligned := seg.stopAligned
  have ordered := seg.ordered
  have half := seg.canonical
  rw [pagesBetween, List.length_range']
  omega

theorem writablePages_length (segments : List Segment) :
    4096 * (writablePages segments).length = checkpointedSize segments := by
  unfold writablePages checkpointedSize
  induction segments.filter Segment.writable with
  | nil => rfl
  | cons seg rest ih =>
      have here := seg.pages_length
      rw [List.flatMap_cons, List.length_append, List.map_cons, List.sum_cons]
      omega

end Addresses

/-! The passes. -/

section Passes

variable {Root : Type} {segments : List Segment} {s : Sthread Root} {table : PageTable} {page : Nat}

theorem pagesBetween_all : page ∈ pagesBetween vaStart vaEnd ↔ page < 2 ^ 36 := by
  rw [mem_pagesBetween, vaStart, vaEnd]
  omega

theorem protectTable_apply (bound : page < 2 ^ 36) : protectTable segments s table page =
    if table page = 0 then 0 else protectEntry segments s (page * 4096) (table page) := by
  have nodup : (pagesBetween vaStart vaEnd).Nodup := by
    rw [pagesBetween]
    exact List.nodup_range'
  have rewrites : ∀ va pte own, walkProtect segments s va pte own =
      (0, protectEntry segments s va pte, own) := fun _ _ _ => rfl
  have base : vaStart / 2 ^ 48 * 2 ^ 48 + page * 4096 = page * 4096 := by rw [vaStart]; omega
  rw [protectTable, tableWalk, walkPages_rewrites rewrites nodup]
  simp only [pagesBetween_all.mpr bound, true_and, base, ne_eq, ite_not]
  split
  · assumption
  · rfl

/-- What a walk that counts pages leaves at an entry. -/
theorem remap_entry (layout : DuneLayout) (writable : Nat) (pages : List Nat) (walk : Nat) (table : PageTable)
    (page : Nat) :
    let after := pages.foldl (pageTurn fun _ walk => (copyEntry layout writable walk, walk + 4096)) (walk, table)
    after.2 page = table page ∧ (page ∈ pages → table page = 0) ∨
      page ∈ pages ∧ ∃ turn < pages.length, after.2 page = copyEntry layout writable (walk + 4096 * turn) := by
  induction pages generalizing walk table with
  | nil => simp
  | cons first rest ih =>
      simp only [List.foldl_cons, List.length_cons, pageTurn]
      by_cases blank : table first = 0
      · rw [if_pos blank]
        rcases ih walk table with ⟨same, absent⟩ | ⟨inRest, turn, bound, entry⟩
        · refine Or.inl ⟨same, fun member => ?_⟩
          rcases List.mem_cons.mp member with rfl | inRest
          · exact blank
          · exact absent inRest
        · exact Or.inr ⟨List.mem_cons_of_mem _ inRest, turn, by omega, entry⟩
      · rw [if_neg blank]
        rcases ih (walk + 4096) (table.set first (copyEntry layout writable walk)) with
          ⟨same, absent⟩ | ⟨inRest, turn, bound, entry⟩
        · by_cases isFirst : page = first
          · subst isFirst
            refine Or.inr ⟨List.mem_cons_self, 0, by omega, ?_⟩
            rw [same, PageTable.set, if_pos rfl, Nat.mul_zero, Nat.add_zero]
          · have other : table.set first (copyEntry layout writable walk) page = table page := if_neg isFirst
            rw [other] at same absent
            refine Or.inl ⟨same, fun member => ?_⟩
            exact absent ((List.mem_cons.mp member).resolve_left isFirst)
        · refine Or.inr ⟨List.mem_cons_of_mem _ inRest, turn + 1, by omega, ?_⟩
          rw [entry]
          congr 1
          omega

theorem remapTable_eq (layout : DuneLayout) (segments : List Segment) (writable : Nat) (table : PageTable) :
    remapTable layout segments writable table = (writablePages segments).foldl
      (pageTurn fun _ walk => (copyEntry layout writable walk, walk + 4096)) (0, table) :=
  eachWritable_pages _ segments (0, table)

end Passes

/-! Words. -/

section Words

variable {Root : Type} {segments : List Segment} {s : Sthread Root} {addr : Nat} {pte : Ptent}

theorem denied_user (pte : Ptent) : (pte &&& ~~~ pteU).has pteU = false := by
  have apart : ~~~ pteU &&& pteU = 0 := by decide
  simp [Ptent.has, BitVec.and_assoc, apart]

theorem withheld_write (pte : Ptent) : (pte &&& ~~~ pteW).has pteW = false := by
  have apart : ~~~ pteW &&& pteW = 0 := by decide
  simp [Ptent.has, BitVec.and_assoc, apart]

theorem orIf_user {condition : Bool} (user : (orIf condition pteU (pte &&& ~~~ pteU)).has pteU = true) :
    condition = true := by
  cases condition with
  | true => rfl
  | false =>
      rw [orIf, if_neg (by decide), denied_user] at user
      exact user

/-- What a user-accessible entry says after the first pass. -/
theorem protectEntry_user (user : (protectEntry segments s addr pte).has pteU = true) :
    (∃ seg ∈ segments, seg.covers addr = true ∧ seg.writable = false) ∨
      s.onStack addr = true ∨
      ∃ word ∈ s.sc.grants, grantCovers word addr = true ∧
        (s.onStack addr = false → grantWrites word = false →
          (protectEntry segments s addr pte).has pteW = false) := by
  unfold protectEntry at user ⊢
  cases inSegment : segments.find? fun seg => seg.covers addr with
  | some seg =>
      simp only [inSegment] at user
      refine Or.inl ⟨seg, List.mem_of_find?_eq_some inSegment, by simpa using List.find?_some inSegment, ?_⟩
      simpa using orIf_user user
  | none =>
      simp only [inSegment] at user ⊢
      right
      cases granted : s.sc.grants.find? fun word => grantCovers word addr with
      | some word =>
          refine Or.inr ⟨word, List.mem_of_find?_eq_some granted, by simpa using List.find?_some granted, ?_⟩
          intro _ readOnly
          simp only [readOnly, Bool.false_eq_true, if_false]
          exact withheld_write _
      | none =>
          simp only [granted] at user
          exact Or.inl (orIf_user user)

end Words

/-! The page table that `create_new_sthread` builds. -/

section Created

variable {mem : PhysAddr → Nat → Ptent} {root pgroot : PhysAddr} {vm : Vm} {va : Nat}

theorem leafAt_plain {level : Nat} {dir : PhysAddr}
    (plain : ∀ low table index, Within nptentries tableOf mem level dir (low + 1) table →
      index < nptentries → entryTable (low + 1) (mem table index)) :
    (leafAt tableOf mem (fun level => pdx level va) level dir).2 =
      wordAt tableOf 0 mem (fun level => pdx level va) level dir := by
  induction level generalizing dir with
  | zero => rfl
  | succ level ih =>
      have bound := pdx_bound (level + 1) va
      simp only [leafAt, wordAt]
      rcases plain level dir _ (.here _ dir) bound with blank | isTable
      · have unnamed : tableOf level (mem dir (pdx (level + 1) va)) = none := by
          rw [blank]
          exact tableOf_zero level
        rw [unnamed]
        exact blank
      · have names : tableOf level (mem dir (pdx (level + 1) va)) =
            some (pteAddr (mem dir (pdx (level + 1) va))) :=
          (congrArg (tableOf level) isTable).trans (tableOf_table level _)
        rw [names]
        exact ih fun low table index inside => plain low table index (.under bound names inside)

/-- The leaf entries of a root without big pages are those of its page table. -/
theorem leafOf_plain (plain : Forest entryTable mem [treeOf root]) (canonical : va < 2 ^ 48) :
    (leafOf mem root va).2 = pageTable mem root (va / 4096) := by
  have entries : ∀ low table index, Within nptentries tableOf mem 3 root (low + 1) table →
      index < nptentries → entryTable (low + 1) (mem table index) :=
    plain.entries (treeOf root) (by simp)
  have route : (fun level => pdx level va) = fun level => pdx level (va / 4096 * 4096) :=
    funext fun level => (pdx_same_page (by omega) level).symm
  rw [leafOf, leafAt_plain entries, pageTable, if_pos (by omega), leafWord, route]

/-- The page table of the new sthread is that of the clone after the two passes. -/
theorem createNewSthread_table (layout : DuneLayout) (segments : List Segment) (id stack writable : Nat)
    (sc : Sc) (built : RootBuilt vm pgroot) (succeeds : ¬ exhausted (vmClone pgroot vm).2.pool) :
    ∃ s after cloned, createNewSthread layout segments pgroot id stack writable sc vm = (some s, after) ∧
      s.stack = stack ∧ s.writable = writable ∧ s.sc = sc ∧
      Forest entryTable after.mem [treeOf s.pgroot] ∧
      pageTable after.mem s.pgroot =
        (remapTable layout segments writable (protectTable segments s cloned)).2 ∧
      ∀ page < 2 ^ 36, cloned page = cloneTarget vm.mem 3 pgroot (page * 4096) := by
  obtain ⟨root, cloneResult, inv⟩ := vmClone_cloned built succeeds
  unfold createNewSthread
  generalize vmClone pgroot vm = outcome at cloneResult inv ⊢
  obtain ⟨result, clonedVm⟩ := outcome
  obtain rfl : result = some (some root) := cloneResult
  let s : Sthread PhysAddr := ⟨id, .running, 0, stack, root, sc, writable, 0⟩
  have cloned : Shows root ((), clonedVm) ((), pageTable clonedVm.mem root) := ⟨rfl, rfl, inv.plain⟩
  have denied := memoryWalk_shows (walkProtect segments s) cloned vaStart vaEnd
  have start : Shows root (0, (memoryWalk (walkProtect segments s) root vaStart vaEnd ((), clonedVm)).2)
      (0, protectTable segments s (pageTable clonedVm.mem root)) := ⟨rfl, denied.table, denied.plain⟩
  have remapped := eachWritable_shows (walkRemap layout writable) segments start
  refine ⟨_, _, pageTable clonedVm.mem root, rfl, rfl, rfl, rfl, remapped.plain, remapped.table, ?_⟩
  intro page bound
  have canonical : page * 4096 < 2 ^ 48 := by omega
  rw [pageTable, if_pos bound, inv.words _ canonical, if_pos canonical]

end Created

/-! Contexts. -/

section Contexts

variable {tags : List Tag} {sc next : Sc}

/-- The word stands for a tag. -/
def NamesTag (tags : List Tag) (word : BitVec 64) : Prop :=
  ∃ tag ∈ tags, grantStart word = BitVec.ofNat 64 tag.buf

theorem grantStart_word {addr : BitVec 64} {prot : BitVec 32} (aligned : grantStart addr = addr)
    (small : prot &&& 0xf#32 = prot) : grantStart (addr ||| prot.signExtend 64) = addr := by
  have positive : prot.msb = false := by
    have bits : (0xf#32).msb = false := by decide
    rw [← small, BitVec.msb_and, bits, Bool.and_false]
  have wide : prot.signExtend 64 &&& 0xfffffffffffffff0#64 = 0 := by
    have apart : (0xf#32).setWidth 64 &&& 0xfffffffffffffff0#64 = 0#64 := by decide
    rw [BitVec.signExtend_eq_setWidth_of_msb_false positive, ← small, BitVec.setWidth_and, BitVec.and_assoc,
      apart, BitVec.and_zero]
    rfl
  rw [grantStart, BitVec.and_or_distrib_right, wide]
  rw [grantStart] at aligned
  rw [aligned]
  exact BitVec.or_zero

theorem scMemAdd_words {tid : Int} {prot : BitVec 32} (added : scMemAdd tags sc tid prot = some next) :
    ∀ word ∈ next.mem, word ∈ sc.mem ∨ NamesTag tags word := by
  unfold scMemAdd at added
  cases found : tags.find? fun tag => tag.id = tid with
  | none => simp [found] at added
  | some tag =>
      simp only [found] at added
      split at added
      · rename_i free
        obtain ⟨_, aligned, small⟩ := free
        obtain rfl := Option.some.inj added
        intro word member
        rcases List.mem_or_eq_of_mem_set member with old | rfl
        · exact Or.inl old
        · rw [aligned]
          exact Or.inr ⟨tag, List.mem_of_find?_eq_some found, grantStart_word aligned small⟩
      · simp at added

/-- A context holds words of tags only. -/
theorem ScBuilt.words (built : ScBuilt tags sc) : ∀ word ∈ sc.mem, word = 0 ∨ NamesTag tags word := by
  induction built with
  | init =>
      intro word member
      exact Or.inl (List.eq_of_mem_replicate member)
  | memAdd _ added ih =>
      intro word member
      rcases scMemAdd_words added word member with old | names
      · exact ih word old
      · exact Or.inr names
  | fdAdd _ added ih =>
      simp only [scFdAdd] at added
      split at added
      · obtain rfl := Option.some.inj added
        exact ih
      · simp at added
  | sysAdd _ added ih =>
      unfold scSysAdd at added
      split at added
      · simp at added
      · obtain rfl := Option.some.inj added
        exact ih

theorem Sc.grants_mem {word : BitVec 64} (grant : word ∈ sc.grants) : word ∈ sc.mem ∧ word ≠ 0 := by
  refine ⟨(List.takeWhile_prefix _).subset grant, ?_⟩
  have nonzero := List.mem_takeWhile_imp grant
  simpa using nonzero

theorem ScBuilt.grant {word : BitVec 64} (built : ScBuilt tags sc) (grant : word ∈ sc.grants) :
    NamesTag tags word := by
  obtain ⟨member, nonzero⟩ := Sc.grants_mem grant
  exact (built.words word member).resolve_left nonzero

theorem grantCovers_tag {word : BitVec 64} {tag : Tag} (names : grantStart word = BitVec.ofNat 64 tag.buf)
    (addr : Nat) : grantCovers word addr = tag.covers addr := by
  have user := tag.user
  have small : tag.buf < 2 ^ 64 := by omega
  have sum : (BitVec.ofNat 64 tag.buf + BitVec.ofNat 64 tagSize).toNat = tag.buf + tagSize := by
    rw [tagSize] at user ⊢
    rw [BitVec.toNat_add, BitVec.toNat_ofNat, BitVec.toNat_ofNat]
    omega
  rw [grantCovers, Tag.covers, names, sum, BitVec.toNat_ofNat, Nat.mod_eq_of_lt small]

end Contexts

/-! Isolation. -/

def Apart (start size other otherSize : Nat) : Prop :=
  start + size ≤ other ∨ other + otherSize ≤ start

/-- The regions are mapped at distinct pages, and tags and stack outside the segments. -/
structure Placed (segments : List Segment) (tags : List Tag) (stack : Nat) : Prop where
  tagsApart : ∀ tag ∈ tags, ∀ other ∈ tags, tag.buf ≠ other.buf → Apart tag.buf tagSize other.buf tagSize
  tagsOutside : ∀ tag ∈ tags, ∀ seg ∈ segments, Apart tag.buf tagSize seg.start (seg.stop - seg.start)
  stackAligned : stack % 4096 = 0
  stackUser : stack + stackSize ≤ 2 ^ 47
  stackApart : ∀ tag ∈ tags, Apart stack stackSize tag.buf tagSize
  stackOutside : ∀ seg ∈ segments, Apart stack stackSize seg.start (seg.stop - seg.start)

/-- The entry maps a page of the private copy. -/
def OwnCopy {Root : Type} (layout : DuneLayout) (segments : List Segment) (s : Sthread Root) (pte : Ptent) :
    Prop :=
  ∃ turn, 4096 * turn < checkpointedSize segments ∧ pte = copyEntry layout s.writable (4096 * turn)

/-- What the page table of an sthread lets it reach. -/
structure Confined (layout : DuneLayout) (segments : List Segment) (tags : List Tag) (s : Sthread PhysAddr)
    (mem : PhysAddr → Nat → Ptent) : Prop where
  reach : ∀ va < 2 ^ 48, (leafOf mem s.pgroot va).2.has pteU = true →
    (∃ seg ∈ segments, seg.covers (canonicalVa va) = true ∧ seg.writable = false) ∨
    (∃ seg ∈ segments, seg.covers (canonicalVa va) = true ∧ seg.writable = true) ∨
    s.onStack (canonicalVa va) = true ∨
    ∃ tag ∈ tags, tag.covers (canonicalVa va) = true ∧ s.sc.granting tag ≠ []
  copies : ∀ va < 2 ^ 48, (leafOf mem s.pgroot va).2.has pteU = true → ∀ seg ∈ segments,
    seg.covers (canonicalVa va) = true → seg.writable = true →
    OwnCopy layout segments s (leafOf mem s.pgroot va).2
  readOnly : ∀ va < 2 ^ 48, ∀ tag ∈ tags, tag.covers (canonicalVa va) = true →
    (∀ word ∈ s.sc.granting tag, grantWrites word = false) →
    ¬ ((leafOf mem s.pgroot va).2.has pteU = true ∧ (leafOf mem s.pgroot va).2.has pteW = true)

section Isolation

variable {Root : Type} {layout : DuneLayout} {segments : List Segment} {tags : List Tag} {s : Sthread Root}
variable {table : PageTable} {page : Nat}

/-- The page table after both passes. -/
def sthreadTable (layout : DuneLayout) (segments : List Segment) (s : Sthread Root) (table : PageTable) :
    PageTable := (remapTable layout segments s.writable (protectTable segments s table)).2

/-- An entry after both passes is of the copy, or what the first pass left. -/
theorem sthreadTable_cases (layout : DuneLayout) (segments : List Segment) (s : Sthread Root)
    (table : PageTable) (bound : page < 2 ^ 36) :
    (page ∈ writablePages segments ∧ ∃ turn < (writablePages segments).length,
      sthreadTable layout segments s table page = copyEntry layout s.writable (4096 * turn)) ∨
    sthreadTable layout segments s table page = 0 ∨
    page ∉ writablePages segments ∧
      sthreadTable layout segments s table page = protectEntry segments s (page * 4096) (table page) := by
  have entry := remap_entry layout s.writable (writablePages segments) 0 (protectTable segments s table) page
  rw [← remapTable_eq] at entry
  rcases entry with ⟨same, blank⟩ | ⟨listed, turn, turns, copy⟩
  · right
    by_cases listed : page ∈ writablePages segments
    · exact Or.inl (same.trans (blank listed))
    · have denied := same.trans (protectTable_apply bound)
      by_cases absent : table page = 0
      · rw [if_pos absent] at denied
        exact Or.inl denied
      · rw [if_neg absent] at denied
        exact Or.inr ⟨listed, denied⟩
  · rw [Nat.zero_add] at copy
    exact Or.inl ⟨listed, turn, turns, copy⟩

theorem zero_user : ¬ Ptent.has 0 pteU = true := by decide

/-- The pages that an sthread may touch. -/
theorem sthreadTable_user (bound : page < 2 ^ 36)
    (user : (sthreadTable layout segments s table page).has pteU = true) :
    page ∈ writablePages segments ∨
      (∃ seg ∈ segments, seg.covers (page * 4096) = true ∧ seg.writable = false) ∨
      s.onStack (page * 4096) = true ∨ ∃ word ∈ s.sc.grants, grantCovers word (page * 4096) = true ∧
        (s.onStack (page * 4096) = false → grantWrites word = false →
          (sthreadTable layout segments s table page).has pteW = false) := by
  rcases sthreadTable_cases layout segments s table bound with
    ⟨listed, _⟩ | blank | ⟨_, denied⟩
  · exact Or.inl listed
  · rw [blank] at user
    exact absurd user zero_user
  · rw [denied] at user ⊢
    exact Or.inr (protectEntry_user user)

theorem sthreadTable_copy (bound : page < 2 ^ 36) (listed : page ∈ writablePages segments)
    (user : (sthreadTable layout segments s table page).has pteU = true) :
    OwnCopy layout segments s (sthreadTable layout segments s table page) := by
  rcases sthreadTable_cases layout segments s table bound with
    ⟨_, turn, turns, copy⟩ | blank | ⟨unlisted, _⟩
  · have total := writablePages_length segments
    exact ⟨turn, by omega, copy⟩
  · rw [blank] at user
    exact absurd user zero_user
  · exact absurd listed unlisted

theorem Tag.covers_page (tag : Tag) {va : Nat} (canonical : va < 2 ^ 48) :
    tag.covers (canonicalVa va) = tag.covers (va / 4096 * 4096) := by
  have aligned := tag.aligned
  have user := tag.user
  have size : tagSize = 40960 := by decide
  unfold Tag.covers canonicalVa
  rw [decide_eq_decide]
  split <;> omega

theorem onStack_page {stack va : Nat} (aligned : stack % 4096 = 0) (user : stack + stackSize ≤ 2 ^ 47)
    (isStack : s.stack = stack) (canonical : va < 2 ^ 48) :
    s.onStack (canonicalVa va) = s.onStack (va / 4096 * 4096) := by
  have size : stackSize = 40960 := by decide
  unfold Sthread.onStack canonicalVa
  rw [isStack, decide_eq_decide]
  split <;> omega

/-- A page of a tag is of no segment, not of the stack, and of no other tag. -/
theorem Placed.tag_alone {stack : Nat} (placed : Placed segments tags stack) (isStack : s.stack = stack)
    {tag : Tag} (member : tag ∈ tags) {addr : Nat} (covers : tag.covers addr = true) :
    (∀ seg ∈ segments, seg.covers addr = false) ∧ s.onStack addr = false ∧
      ∀ other ∈ tags, other.covers addr = true → other.buf = tag.buf := by
  rw [Tag.covers, decide_eq_true_eq] at covers
  refine ⟨fun seg recorded => ?_, ?_, fun other otherMember both => ?_⟩
  · have outside := placed.tagsOutside tag member seg recorded
    have ordered := seg.ordered
    rw [Segment.covers, decide_eq_false_iff_not]
    unfold Apart at outside
    omega
  · have outside := placed.stackApart tag member
    rw [Sthread.onStack, isStack, decide_eq_false_iff_not]
    unfold Apart at outside
    omega
  · rw [Tag.covers, decide_eq_true_eq] at both
    by_contra different
    have apart := placed.tagsApart other otherMember tag member different
    unfold Apart at apart
    omega

theorem canonicalVa_low {va : Nat} (low : va < 2 ^ 47) : canonicalVa va = va := if_pos low

end Isolation

section Theorem

variable {layout : DuneLayout} {segments : List Segment} {tags : List Tag} {pgroot : PhysAddr}
variable {id stack writable : Nat} {sc : Sc} {vm : Vm}

/-- An sthread reaches the segments that are not writable, its copy of those that are, its stack
and the tags granted to it, and writes to no tag that is only granted for reading. -/
theorem createNewSthread_confines (built : RootBuilt vm pgroot)
    (succeeds : ¬ exhausted (vmClone pgroot vm).2.pool) (placed : Placed segments tags stack)
    (context : ScBuilt tags sc) :
    ∃ s after, createNewSthread layout segments pgroot id stack writable sc vm = (some s, after) ∧
      s.stack = stack ∧ s.writable = writable ∧ s.sc = sc ∧ Confined layout segments tags s after.mem := by
  obtain ⟨s, after, cloned, created, isStack, isWritable, isSc, plain, table, _⟩ :=
    createNewSthread_table layout segments id stack writable sc built succeeds
  have leaf : ∀ va < 2 ^ 48, (leafOf after.mem s.pgroot va).2 =
      sthreadTable layout segments s cloned (va / 4096) := by
    intro va canonical
    rw [leafOf_plain plain canonical, table, sthreadTable, isWritable]
  have ofSegment : ∀ va < 2 ^ 48, va / 4096 ∈ writablePages segments ↔ ∃ seg ∈ segments,
      seg.writable = true ∧ seg.covers (canonicalVa va) = true := by
    intro va canonical
    rw [mem_writablePages (by omega)]
    simp only [Segment.covers_page _ canonical]
  refine ⟨s, after, created, isStack, isWritable, isSc, ?_, ?_, ?_⟩
  · intro va canonical user
    rw [leaf va canonical] at user
    rcases sthreadTable_user (by omega) user with listed | ⟨seg, recorded, covers, readOnly⟩ | onStack |
      ⟨word, grant, covers, _⟩
    · obtain ⟨seg, recorded, isWritable, covers⟩ := (ofSegment va canonical).mp listed
      exact Or.inr (Or.inl ⟨seg, recorded, covers, isWritable⟩)
    · have low := seg.covers_raw (by omega) covers
      rw [← canonicalVa_low low, ← seg.covers_page canonical] at covers
      exact Or.inl ⟨seg, recorded, covers, readOnly⟩
    · rw [← onStack_page placed.stackAligned placed.stackUser isStack canonical] at onStack
      exact Or.inr (Or.inr (Or.inl onStack))
    · obtain ⟨tag, member, names⟩ := (isSc ▸ context : ScBuilt tags s.sc).grant grant
      rw [grantCovers_tag names, ← tag.covers_page canonical] at covers
      have granted : word ∈ s.sc.granting tag := List.mem_filter.mpr ⟨grant, by simpa using names⟩
      exact Or.inr (Or.inr (Or.inr ⟨tag, member, covers, List.ne_nil_of_mem granted⟩))
  · intro va canonical user seg recorded covers isWritable
    have listed := (ofSegment va canonical).mpr ⟨seg, recorded, isWritable, covers⟩
    rw [leaf va canonical] at user ⊢
    exact sthreadTable_copy (by omega) listed user
  · rintro va canonical tag member covers readOnly ⟨user, write⟩
    obtain ⟨noSegment, offStack, alone⟩ := placed.tag_alone isStack member covers
    rw [leaf va canonical] at user write
    rcases sthreadTable_user (by omega) user with listed | ⟨seg, recorded, inSegment, _⟩ | onStack |
      ⟨word, grant, grantHere, withheld⟩
    · obtain ⟨seg, recorded, _, inSegment⟩ := (ofSegment va canonical).mp listed
      rw [noSegment seg recorded] at inSegment
      exact absurd inSegment (by simp)
    · have low := seg.covers_raw (by omega) inSegment
      rw [← canonicalVa_low low, ← seg.covers_page canonical, noSegment seg recorded] at inSegment
      exact absurd inSegment (by simp)
    · rw [← onStack_page placed.stackAligned placed.stackUser isStack canonical, offStack] at onStack
      exact absurd onStack (by simp)
    · obtain ⟨other, otherMember, names⟩ := (isSc ▸ context : ScBuilt tags s.sc).grant grant
      rw [grantCovers_tag names, ← other.covers_page canonical] at grantHere
      have same := alone other otherMember grantHere
      have granted : word ∈ s.sc.granting tag := List.mem_filter.mpr ⟨grant, by simpa [← same] using names⟩
      rw [onStack_page placed.stackAligned placed.stackUser isStack canonical] at offStack
      rw [withheld offStack (readOnly word granted)] at write
      exact absurd write (by simp)

end Theorem

/-- One segment that is not writable, at the page that `mappedVm` maps. -/
def codeSegment : Segment where
  start := 0
  stop := 4096
  flags := protRead
  startAligned := rfl
  stopAligned := rfl
  ordered := by decide
  canonical := by decide

def bufferTag : Tag where
  id := 0
  buf := 0x10000
  aligned := rfl
  user := by decide

theorem createNewSthread_confines_code : ∃ sc s after,
    scMemAdd [bufferTag] scInit 0 protRead = some sc ∧
      createNewSthread ⟨0x1000000000#64, 0x7f0000000000#64, 0x7fff00000000#64⟩ [codeSegment] 0x1000#64 1
        0x20000 0x30000 sc mappedVm = (some s, after) ∧
      Confined ⟨0x1000000000#64, 0x7f0000000000#64, 0x7fff00000000#64⟩ [codeSegment] [bufferTag] s after.mem := by
  obtain ⟨sc, added⟩ : ∃ sc, scMemAdd [bufferTag] scInit 0 protRead = some sc := ⟨_, rfl⟩
  have placed : Placed [codeSegment] [bufferTag] 0x20000 := by
    refine ⟨?_, ?_, by decide, by decide, ?_, ?_⟩ <;>
      simp [Apart, codeSegment, bufferTag, tagSize, stackSize]
  obtain ⟨s, after, created, _, _, _, confined⟩ :=
    @createNewSthread_confines ⟨0x1000000000#64, 0x7f0000000000#64, 0x7fff00000000#64⟩ [codeSegment]
      [bufferTag] 0x1000#64 1 0x20000 0x30000 sc mappedVm mappedVm_built mappedVm_clones placed
      (ScBuilt.memAdd ScBuilt.init added)
  exact ⟨sc, s, after, added, created, confined⟩

end RdmaPaging
