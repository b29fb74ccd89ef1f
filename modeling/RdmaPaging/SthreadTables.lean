import RdmaPaging.SthreadMachine

/-!
The page tables of sthreads over their lives. A page table differs from that of a fresh sthread
in the accessed and dirty bits only, and the exit call goes over the same pages in the same order
as the walks that put in the private copy.
-/

namespace RdmaPaging

/-! Walks that count pages. -/

section Turns

variable {σ : Type} {turn : Ptent → σ → Ptent × σ} {pages : List Nat} {page : Nat}

theorem pageTurn_other (state : σ × PageTable) {first : Nat} (different : page ≠ first) :
    (pageTurn turn state first).2 page = state.2 page := by
  unfold pageTurn
  split
  · rfl
  · exact if_neg different

theorem foldl_pageTurn_other (state : σ × PageTable) (outside : page ∉ pages) :
    (pages.foldl (pageTurn turn) state).2 page = state.2 page := by
  induction pages generalizing state with
  | nil => rfl
  | cons first rest ih =>
      rw [List.mem_cons, not_or] at outside
      rw [List.foldl_cons, ih _ outside.2, pageTurn_other state outside.1]

end Turns

/-- Each page of the walks gets its page of the private copy. -/
theorem remap_exact (layout : DuneLayout) (writable : Nat) {pages : List Nat} (nodup : pages.Nodup)
    (walk : Nat) {table : PageTable} (present : ∀ page ∈ pages, table page ≠ 0) {turn page : Nat}
    (here : pages[turn]? = some page) :
    (pages.foldl (pageTurn fun _ walk => (copyEntry layout writable walk, walk + 4096)) (walk, table)).2 page =
      copyEntry layout writable (walk + 4096 * turn) := by
  induction pages generalizing walk table turn with
  | nil => simp at here
  | cons first rest ih =>
      obtain ⟨notAgain, restNodup⟩ := List.nodup_cons.mp nodup
      have occupied := present first (by simp)
      rw [List.foldl_cons, pageTurn, if_neg occupied]
      cases turn with
      | zero =>
          obtain rfl : first = page := by simpa using here
          rw [foldl_pageTurn_other _ notAgain, Nat.mul_zero, Nat.add_zero]
          exact if_pos rfl
      | succ turn =>
          rw [List.getElem?_cons_succ] at here
          have stillPresent : ∀ other ∈ rest,
              table.set first (copyEntry layout writable walk) other ≠ 0 := by
            intro other member
            have different : other ≠ first := fun same => notAgain (same ▸ member)
            rw [PageTable.set, if_neg different]
            exact present other (by simp [member])
          have sum : walk + 4096 + 4096 * turn = walk + 4096 * (turn + 1) := by omega
          rw [ih restNodup (walk + 4096) stillPresent here, sum]

/-- Each walk adds a page to `st_walk`. -/
theorem remap_walk (layout : DuneLayout) (writable : Nat) {pages : List Nat} (nodup : pages.Nodup)
    (walk : Nat) {table : PageTable} (present : ∀ page ∈ pages, table page ≠ 0) :
    (pages.foldl (pageTurn fun _ walk => (copyEntry layout writable walk, walk + 4096)) (walk, table)).1 =
      walk + 4096 * pages.length := by
  induction pages generalizing walk table with
  | nil => rfl
  | cons first rest ih =>
      obtain ⟨notAgain, restNodup⟩ := List.nodup_cons.mp nodup
      have stillPresent : ∀ other ∈ rest, table.set first (copyEntry layout writable walk) other ≠ 0 := by
        intro other member
        have different : other ≠ first := fun same => notAgain (same ▸ member)
        rw [PageTable.set, if_neg different]
        exact present other (by simp [member])
      rw [List.foldl_cons, pageTurn, if_neg (present first (by simp)), ih restNodup _ stillPresent, List.length_cons]
      omega

/-- Both functions of the exit call: a page whose entry is dirty gets its bytes from the source. -/
def refill (dst : Nat) (source : HostMem → Nat → BitVec 8) (clean : Ptent → Ptent) :
    Ptent → Nat × HostMem → Ptent × Nat × HostMem := fun pte state =>
  if pte.has pteD then
    (clean pte, state.1 + 4096, fun addr =>
      if dst + state.1 ≤ addr ∧ addr < dst + state.1 + 4096 then source state.2 (addr - dst)
      else state.2 addr)
  else (pte, state.1 + 4096, state.2)

theorem walkRecycle_steady (checkpointedMem writable : Nat) : walkRecycle checkpointedMem writable =
    EntryCb.steady (refill writable (fun mem index => mem (checkpointedMem + index)) (· &&& ~~~ pteD)) := by
  funext va pte state
  unfold walkRecycle EntryCb.steady refill
  split
  · have copied : memcpy state.2 (writable + state.1) (checkpointedMem + state.1) 4096 = fun addr =>
        if writable + state.1 ≤ addr ∧ addr < writable + state.1 + 4096 then
          state.2 (checkpointedMem + (addr - writable)) else state.2 addr := by
      funext addr
      unfold memcpy
      by_cases inside : writable + state.1 ≤ addr ∧ addr < writable + state.1 + 4096
      · have position : checkpointedMem + state.1 + (addr - (writable + state.1)) =
            checkpointedMem + (addr - writable) := by omega
        rw [if_pos inside, if_pos inside, position]
      · rw [if_neg inside, if_neg inside]
    rw [copied]
  · rfl

theorem walkRecycleStack_steady (stack : Nat) :
    walkRecycleStack stack = EntryCb.steady (refill stack (fun _ _ => 0) id) := by
  funext va pte state
  unfold walkRecycleStack EntryCb.steady refill
  split
  · rfl
  · rfl

/-- What the walk with `refill` leaves, from the page at `dst + walk` on. -/
structure Refilled (dst walk : Nat) (source : Nat → BitVec 8) (clean : Ptent → Ptent) (pages : List Nat)
    (mem : HostMem) (table : PageTable) (after : (Nat × HostMem) × PageTable) : Prop where
  entries : ∀ page, after.2 page =
    if page ∈ pages ∧ (table page).has pteD = true then clean (table page) else table page
  frame : ∀ addr, addr < dst + walk ∨ dst + walk + 4096 * pages.length ≤ addr → after.1.2 addr = mem addr
  bytes : ∀ index page, pages[index / 4096]? = some page → after.1.2 (dst + walk + index) =
    if (table page).has pteD = true then source (walk + index) else mem (dst + walk + index)

section Refill

variable {dst walk size : Nat} {source : HostMem → Nat → BitVec 8} {clean : Ptent → Ptent}
variable {pages : List Nat} {page : Nat} {mem : HostMem} {table : PageTable}

/-- One call of `refill`. -/
theorem pageTurn_refill (occupied : table page ≠ 0) :
    pageTurn (refill dst source clean) ((walk, mem), table) page =
      ((walk + 4096, fun addr => if (table page).has pteD = true ∧ dst + walk ≤ addr ∧
          addr < dst + walk + 4096 then source mem (addr - dst) else mem addr),
        table.set page (if (table page).has pteD = true then clean (table page) else table page)) := by
  rw [pageTurn, if_neg occupied]
  simp only [refill]
  by_cases dirty : (table page).has pteD = true
  · simp [dirty]
  · simp [dirty]

theorem refill_fold (dst walk size : Nat) (source : HostMem → Nat → BitVec 8) (clean : Ptent → Ptent)
    (mem : HostMem) (nodup : pages.Nodup) (present : ∀ page ∈ pages, table page ≠ 0)
    (stable : ∀ one two : HostMem, (∀ addr, ¬ (dst ≤ addr ∧ addr < dst + size) → one addr = two addr) →
      ∀ index < size, source one index = source two index)
    (fits : walk + 4096 * pages.length ≤ size) :
    Refilled dst walk (source mem) clean pages mem table
      (pages.foldl (pageTurn (refill dst source clean)) ((walk, mem), table)) := by
  induction pages generalizing walk mem table with
  | nil => exact ⟨by simp, by simp, by simp⟩
  | cons first rest ih =>
      obtain ⟨notAgain, restNodup⟩ := List.nodup_cons.mp nodup
      have occupied := present first (by simp)
      rw [List.length_cons] at fits
      rw [List.foldl_cons, pageTurn_refill occupied]
      generalize nextMem : (fun addr => if (table first).has pteD = true ∧ dst + walk ≤ addr ∧
        addr < dst + walk + 4096 then source mem (addr - dst) else mem addr) = next
      generalize nextTable : table.set first
        (if (table first).has pteD = true then clean (table first) else table first) = marked
      have unchanged : ∀ addr, ¬ (dst + walk ≤ addr ∧ addr < dst + walk + 4096) → next addr = mem addr := by
        intro addr outside
        rw [← nextMem]
        exact if_neg fun inside => outside inside.2
      have elsewhere : ∀ page, page ≠ first → marked page = table page := by
        intro page different
        rw [← nextTable]
        exact if_neg different
      have sameSource : ∀ index < size, source next index = source mem index :=
        stable next mem fun addr outside => unchanged addr fun inside => outside ⟨by omega, by omega⟩
      have stillPresent : ∀ page ∈ rest, marked page ≠ 0 := by
        intro page member
        rw [elsewhere page fun same => notAgain (same ▸ member)]
        exact present page (by simp [member])
      have further := ih (walk + 4096) next restNodup stillPresent (by omega)
      refine ⟨fun page => ?_, fun addr outside => ?_, fun index page here => ?_⟩
      · rw [further.entries]
        by_cases isFirst : page = first
        · subst isFirst
          rw [if_neg fun both => notAgain both.1, ← nextTable, PageTable.set, if_pos rfl]
          simp
        · rw [elsewhere page isFirst]
          simp [isFirst]
      · rw [List.length_cons] at outside
        rw [further.frame addr (by omega), unchanged addr (by omega)]
      · by_cases inFirst : index < 4096
        · obtain rfl : first = page := by
            rw [Nat.div_eq_of_lt inFirst, List.getElem?_cons_zero, Option.some.injEq] at here
            exact here
          have offset : dst + walk + index - dst = walk + index := by omega
          rw [further.frame _ (Or.inl (by omega)), ← nextMem]
          dsimp only
          rw [offset]
          by_cases dirty : (table first).has pteD = true
          · rw [if_pos ⟨dirty, by omega, by omega⟩, if_pos dirty]
          · rw [if_neg (fun both => dirty both.1), if_neg dirty]
        · have position : index / 4096 = (index - 4096) / 4096 + 1 := by omega
          rw [position, List.getElem?_cons_succ] at here
          have different : page ≠ first := by
            rintro rfl
            exact notAgain (List.mem_of_getElem? here)
          have bytes := further.bytes (index - 4096) page here
          have sum : dst + (walk + 4096) + (index - 4096) = dst + walk + index := by omega
          have offset : walk + 4096 + (index - 4096) = walk + index := by
            rw [Nat.add_assoc, Nat.add_sub_cancel' (Nat.le_of_not_lt inFirst)]
          obtain ⟨inRest, _⟩ := List.getElem?_eq_some_iff.mp here
          have fitsHere : walk + index < size := by omega
          have beyond : ¬ (dst + walk ≤ dst + walk + index ∧ dst + walk + index < dst + walk + 4096) := by
            omega
          have same : next (dst + walk + index) = mem (dst + walk + index) := unchanged (dst + walk + index) beyond
          rw [sum, offset, elsewhere page different, same, sameSource _ fitsHere] at bytes
          exact bytes

end Refill

/-! Addresses of the host. -/

section Host

variable {layout : DuneLayout} {ptr : Nat}

theorem hostAddr_getLayout {physBits : Nat} {mm : MmStruct} {gpa : PhysAddr} (inside : gpa < physEnd physBits) :
    (getLayout physBits mm).hostAddr gpa = (gpaToHva physBits mm gpa).toNat := by
  unfold DuneLayout.hostAddr gpaToHva getLayout
  split
  · rfl
  · split
    · congr 1
      grind
    · congr 1
      grind

theorem DuneLayout.Sound.regions (sound : layout.Sound) :
    (layout.physLimit - gpaStackSize).toNat = layout.physLimit.toNat - 2 ^ 28 ∧
    (layout.physLimit - gpaStackSize - gpaMapSize).toNat = layout.physLimit.toNat - 2 ^ 31 := by
  have low := sound.limitLow
  have high := sound.limitHigh
  have stackBytes : gpaStackSize.toNat = 2 ^ 28 := by decide
  have mapBytes : gpaMapSize.toNat = 2 ^ 31 - 2 ^ 28 := by decide
  have stackStart : (layout.physLimit - gpaStackSize).toNat = layout.physLimit.toNat - 2 ^ 28 := by
    rw [BitVec.toNat_sub, stackBytes]
    omega
  refine ⟨stackStart, ?_⟩
  rw [BitVec.toNat_sub, stackStart, mapBytes]
  omega

theorem hostAddr_aligned (sound : layout.Sound) (pte : Ptent) : layout.hostAddr (pteAddr pte) % 4096 = 0 := by
  obtain ⟨stackStart, mapStart⟩ := sound.regions
  have low := sound.limitLow
  have limit := sound.limitAligned
  have address : (pteAddr pte).toNat % 4096 = 0 := by
    rw [pteAddr_toNat]
    omega
  unfold DuneLayout.hostAddr
  split
  · exact address
  · split
    · exact add_aligned (sub_aligned address (by omega)) sound.mapAligned
    · exact add_aligned (sub_aligned address (by omega)) sound.stackAligned

/-- The address of a page of the mapping area in an entry is that page. -/
theorem hostAddr_mapped (sound : layout.Sound) (aligned : ptr % 4096 = 0)
    (first : layout.mmapBase.toNat ≤ ptr) (last : ptr < layout.mmapBase.toNat + gpaMapSize.toNat)
    {flags : Ptent} (noAddress : pteAddr flags = 0) :
    layout.hostAddr (pteAddr (duneVaToPa layout (BitVec.ofNat 64 ptr) ||| flags)) = ptr := by
  obtain ⟨stackStart, mapStart⟩ := sound.regions
  have low := sound.limitLow
  have high := sound.limitHigh
  have limit := sound.limitAligned
  have below := sound.mapBelow
  have user := sound.stackBelow
  have base := sound.mapAligned
  have mapBytes : gpaMapSize.toNat = 2 ^ 31 - 2 ^ 28 := by decide
  have value : (BitVec.ofNat 64 ptr).toNat = ptr := by
    rw [BitVec.toNat_ofNat]
    omega
  have translated : duneVaToPa layout (BitVec.ofNat 64 ptr) =
      BitVec.ofNat 64 ptr - layout.mmapBase + (layout.physLimit - gpaStackSize - gpaMapSize) := by
    rw [duneVaToPa, if_neg (by rw [BitVec.le_def, value]; omega),
      if_pos (by rw [BitVec.le_def, value]; omega), duneMmapAddrToPa]
    grind
  have number : (duneVaToPa layout (BitVec.ofNat 64 ptr)).toNat =
      layout.physLimit.toNat - 2 ^ 31 + (ptr - layout.mmapBase.toNat) := by
    rw [translated, BitVec.toNat_add, BitVec.toNat_sub, value, mapStart]
    omega
  have address : pteAddr (duneVaToPa layout (BitVec.ofNat 64 ptr) ||| flags) =
      duneVaToPa layout (BitVec.ofNat 64 ptr) := by
    have whole : pteAddr (duneVaToPa layout (BitVec.ofNat 64 ptr)) = duneVaToPa layout (BitVec.ofNat 64 ptr) :=
      pteAddr_of_aligned (by omega) (by omega)
    rw [← whole]
    exact pteAddr_or _ _ noAddress
  rw [address, DuneLayout.hostAddr, if_neg (by rw [BitVec.lt_def]; omega),
    if_pos (by rw [BitVec.lt_def]; omega), translated]
  have same : BitVec.ofNat 64 ptr - layout.mmapBase + (layout.physLimit - gpaStackSize - gpaMapSize) -
      (layout.physLimit - gpaStackSize - gpaMapSize) + layout.mmapBase = BitVec.ofNat 64 ptr := by
    grind
  rw [same, value]

theorem hostAddr_copyEntry (sound : layout.Sound) {writable offset : Nat} (aligned : (writable + offset) % 4096 = 0)
    (first : layout.mmapBase.toNat ≤ writable + offset)
    (last : writable + offset < layout.mmapBase.toNat + gpaMapSize.toNat) :
    layout.hostAddr (pteAddr (copyEntry layout writable offset)) = writable + offset := by
  have noAddress : pteAddr (pteP ||| pteW ||| pteU) = 0 := by decide
  have flags : copyEntry layout writable offset =
      duneVaToPa layout (BitVec.ofNat 64 (writable + offset)) ||| (pteP ||| pteW ||| pteU) := by
    rw [copyEntry, BitVec.or_assoc, BitVec.or_assoc, BitVec.or_assoc]
  rw [flags]
  exact hostAddr_mapped sound aligned first last noAddress

theorem copyEntry_present (writable offset : Nat) : (copyEntry layout writable offset).has pteP = true := by
  rw [Ptent.has, copyEntry, decide_eq_true_eq]
  intro zero
  simp only [BitVec.and_or_distrib_right] at zero
  have bit := (BitVec.or_eq_zero_iff.mp (BitVec.or_eq_zero_iff.mp (BitVec.or_eq_zero_iff.mp zero).1).1).2
  exact absurd bit (by decide)

end Host

/-! The page table of a fresh sthread. -/

theorem writablePages_nodup {segments : List Segment}
    (distinct : segments.Pairwise fun first second =>
      Apart first.start (first.stop - first.start) second.start (second.stop - second.start)) :
    (writablePages segments).Nodup := by
  rw [writablePages, List.nodup_flatMap]
  refine ⟨fun seg _ => ?_, (distinct.filter _).imp ?_⟩
  · rw [pagesBetween]
    exact List.nodup_range'
  · intro first second apart page inFirst inSecond
    have bound := page_bound inFirst
    have one := (first.mem_pages bound).mp inFirst
    have two := (second.mem_pages bound).mp inSecond
    rw [Segment.covers, decide_eq_true_eq] at one two
    unfold Apart at apart
    omega

section Entries

variable {Root : Type} {segments : List Segment} {s : Sthread Root} {addr : Nat} {pte mask : Ptent}

theorem orIf_keeps {condition : Bool} {flag : Ptent} (apart : flag &&& mask = 0) (pte : Ptent) :
    orIf condition flag pte &&& mask = pte &&& mask := orIf_and_apart condition pte apart

/-- The first pass changes no bit of an entry but `PTE_U` and `PTE_W`. -/
theorem protectEntry_keeps (user : pteU &&& mask = 0) (write : pteW &&& mask = 0) :
    protectEntry segments s addr pte &&& mask = pte &&& mask := by
  have without : ∀ flag word : Ptent, flag &&& mask = 0 → word &&& ~~~ flag &&& mask = word &&& mask := by
    intro flag word apart
    have kept : ~~~ flag &&& mask = mask := by
      ext bit
      have here := congrArg (fun word => word[bit]) apart
      simp only [BitVec.getElem_and, BitVec.getElem_not] at here ⊢
      cases set : flag[bit] <;> simp_all
    rw [BitVec.and_assoc, kept]
  have added : ∀ word : Ptent, (word ||| pteU) &&& mask = word &&& mask := by
    intro word
    rw [BitVec.and_or_distrib_right, user]
    exact BitVec.or_zero
  unfold protectEntry
  split
  · rw [orIf_keeps user, without pteU pte user]
  · split
    · split
      · rw [added, orIf_keeps user, without pteU pte user]
      · rw [without pteW _ write, added, orIf_keeps user, without pteU pte user]
    · rw [orIf_keeps user, without pteU pte user]

theorem protectEntry_present : (protectEntry segments s addr pte).has pteP = pte.has pteP := by
  rw [Ptent.has, Ptent.has, protectEntry_keeps (by decide) (by decide)]

theorem protectEntry_address : pteAddr (protectEntry segments s addr pte) = pteAddr pte :=
  protectEntry_keeps (by decide) (by decide)

end Entries

/-- The page table that an sthread had when it was made. -/
def Wedge.freshTable (w : Wedge) (s : Sthread PageTable) : PageTable :=
  sthreadTable w.layout w.segments s w.master

theorem newSthread_pgroot (w : Wedge) (s : Sthread PageTable) (id : Nat) {sc : Sc} (same : sc.mem = s.sc.mem) :
    (w.newSthread id s.stack s.writable sc).pgroot = w.freshTable s := by
  have entries : ∀ table, walkProtect w.segments
      (⟨id, .running, 0, s.stack, table, sc, s.writable, 0⟩ : Sthread PageTable) = walkProtect w.segments s := by
    intro table
    funext va pte rest
    simp only [walkProtect, protectEntry, Sthread.onStack, Sc.grants, same]
  simp only [Wedge.newSthread, Wedge.freshTable, sthreadTable, protectTable, entries]

/-- Two page tables differ in the accessed and dirty bits only. -/
def SameButUse (table other : PageTable) : Prop :=
  ∀ page, table page &&& ~~~ (pteA ||| pteD) = other page &&& ~~~ (pteA ||| pteD)

section Uses

variable {table other : PageTable} {page : Nat} {pte entry mask : Ptent}

theorem masked_of_same (same : pte &&& ~~~ (pteA ||| pteD) = entry &&& ~~~ (pteA ||| pteD))
    (apart : ~~~ (pteA ||| pteD) &&& mask = mask) : pte &&& mask = entry &&& mask := by
  have both := congrArg (· &&& mask) same
  simp only [BitVec.and_assoc, apart] at both
  exact both

theorem SameButUse.has (same : SameButUse table other) {flag : Ptent}
    (apart : ~~~ (pteA ||| pteD) &&& flag = flag) : (table page).has flag = (other page).has flag := by
  rw [Ptent.has, Ptent.has, masked_of_same (same page) apart]

theorem SameButUse.address (same : SameButUse table other) :
    pteAddr (table page) = pteAddr (other page) := masked_of_same (same page) (by decide)

theorem has_used (pte : Ptent) : (pte ||| (pteA ||| pteD)).has pteD = true := by
  rw [Ptent.has, decide_eq_true_eq]
  intro zero
  rw [BitVec.and_or_distrib_right] at zero
  have bit := (BitVec.or_eq_zero_iff.mp zero).2
  exact absurd bit (by decide)

theorem used_masked (pte : Ptent) :
    (pte ||| (pteA ||| pteD)) &&& ~~~ (pteA ||| pteD) = pte &&& ~~~ (pteA ||| pteD) := by
  have none : (pteA ||| pteD) &&& ~~~ (pteA ||| pteD) = 0 := by decide
  rw [BitVec.and_or_distrib_right, none]
  exact BitVec.or_zero

theorem cleaned_masked (pte : Ptent) :
    pte &&& ~~~ pteD &&& ~~~ (pteA ||| pteD) = pte &&& ~~~ (pteA ||| pteD) := by
  have inner : ~~~ pteD &&& ~~~ (pteA ||| pteD) = ~~~ (pteA ||| pteD) := by decide
  rw [BitVec.and_assoc, inner]

end Uses

section Fresh

variable {w : Wedge} {s : Sthread PageTable} {page turn : Nat}

theorem writablePages_bound {segments : List Segment} (listed : page ∈ writablePages segments) :
    page < 2 ^ 36 := by
  obtain ⟨seg, _, inSeg⟩ := List.mem_flatMap.mp listed
  exact page_bound inSeg

theorem present_nonzero {pte : Ptent} (has : pte.has pteP = true) : pte ≠ 0 := by
  rintro rfl
  simp [Ptent.has] at has

theorem protectTable_present (ready : w.Ready) (listed : page ∈ writablePages w.segments) :
    protectTable w.segments s w.master page ≠ 0 := by
  have present := ready.present page listed
  rw [protectTable_apply (writablePages_bound listed), if_neg (present_nonzero present)]
  apply present_nonzero
  rw [protectEntry_present]
  exact present

theorem freshTable_copy (ready : w.Ready) (here : (writablePages w.segments)[turn]? = some page) :
    w.freshTable s page = copyEntry w.layout s.writable (4096 * turn) := by
  rw [Wedge.freshTable, sthreadTable, remapTable_eq,
    remap_exact w.layout s.writable (writablePages_nodup ready.distinct) 0
      (fun page listed => protectTable_present ready listed) here, Nat.zero_add]

theorem newSthread_walk {w : Wedge} (ready : w.Ready) (id stack writable : Nat) (sc : Sc) :
    (w.newSthread id stack writable sc).walk = w.size := by
  have total : 4096 * (writablePages w.segments).length = w.size := writablePages_length w.segments
  simp only [Wedge.newSthread, remapTable_eq]
  rw [remap_walk w.layout writable (writablePages_nodup ready.distinct) 0
    (fun page listed => protectTable_present ready listed), Nat.zero_add, total]

theorem freshTable_other (bound : page < 2 ^ 36) (unlisted : page ∉ writablePages w.segments) :
    w.freshTable s page =
      if w.master page = 0 then 0 else protectEntry w.segments s (page * 4096) (w.master page) := by
  rw [Wedge.freshTable, sthreadTable, remapTable_eq, foldl_pageTurn_other _ unlisted]
  exact protectTable_apply bound

/-- Outside the writable segments an entry has the address that the master has. -/
theorem freshTable_master (bound : page < 2 ^ 36) (unlisted : page ∉ writablePages w.segments)
    (present : (w.freshTable s page).has pteP = true) : (w.master page).has pteP = true ∧
      pteAddr (w.freshTable s page) = pteAddr (w.master page) := by
  rw [freshTable_other bound unlisted] at present ⊢
  split at present
  · exact absurd present (by decide)
  · rename_i mapped
    rw [protectEntry_present] at present
    rw [if_neg mapped]
    exact ⟨present, protectEntry_address⟩

/-- A page of a region that is mapped after the segments is not writable segment. -/
theorem Wedge.Mapped.unlisted {start size : Nat} (mapped : w.Mapped start size) (user : start + size ≤ 2 ^ 47)
    (bound : page < 2 ^ 36) (first : start ≤ page * 4096) (last : page * 4096 < start + size) :
    page ∉ writablePages w.segments := by
  intro listed
  obtain ⟨seg, recorded, _, covers⟩ := (mem_writablePages bound).mp listed
  have apart := mapped.segments seg recorded
  rw [canonicalVa_low (by omega), Segment.covers, decide_eq_true_eq] at covers
  unfold Apart at apart
  omega

theorem Wedge.Mapped.user {start size : Nat} (mapped : w.Mapped start size) (ready : w.Ready) :
    start + size ≤ 2 ^ 47 := by
  have last := mapped.last
  have below := ready.layout.mapBelow
  have user := ready.layout.stackBelow
  omega

/-- What a running sthread stores to: its copy, its stack, or nothing of a region that is mapped
after the segments. -/
theorem user_target (ready : w.Ready) (lodged : Lodged w s.stack s.writable) (context : ScBuilt w.tags s.sc)
    (same : SameButUse s.pgroot (w.freshTable s)) (bound : page < 2 ^ 36)
    (present : (s.pgroot page).has pteP = true) (user : (s.pgroot page).has pteU = true) :
    (∃ turn, (writablePages w.segments)[turn]? = some page ∧
      w.layout.hostAddr (pteAddr (s.pgroot page)) = s.writable + 4096 * turn) ∨
    (s.stack ≤ page * 4096 ∧ page * 4096 < s.stack + stackSize ∧
      w.layout.hostAddr (pteAddr (s.pgroot page)) = page * 4096) ∨
    ∀ start size, w.Mapped start size → ¬ (start ≤ w.layout.hostAddr (pteAddr (s.pgroot page)) ∧
      w.layout.hostAddr (pteAddr (s.pgroot page)) < start + size) := by
  rw [same.has (by decide)] at present user
  rw [same.address]
  by_cases listed : page ∈ writablePages w.segments
  · obtain ⟨turn, turnBound, here⟩ := List.mem_iff_getElem.mp listed
    have at_ : (writablePages w.segments)[turn]? = some page := by
      rw [List.getElem?_eq_getElem turnBound, here]
    have total := writablePages_length w.segments
    have aligned := lodged.copyMapped.aligned
    have first := lodged.copyMapped.first
    have last := lodged.copyMapped.last
    rw [Wedge.size] at last
    refine Or.inl ⟨turn, at_, ?_⟩
    rw [freshTable_copy ready at_]
    exact hostAddr_copyEntry ready.layout (by omega) (by omega) (by omega)
  · obtain ⟨masterPresent, address⟩ := freshTable_master bound listed present
    rw [address]
    have regions := (sthreadTable_user bound user).resolve_left listed
    by_cases onStack : s.stack ≤ page * 4096 ∧ page * 4096 < s.stack + stackSize
    · exact Or.inr (Or.inl ⟨onStack.1, onStack.2, (lodged.stackPages page onStack.1 onStack.2).2⟩)
    · refine Or.inr (Or.inr ?_)
      rintro start size mapped ⟨low, high⟩
      have own := mapped.own page bound masterPresent low high
      rcases regions with ⟨seg, recorded, covers, _⟩ | stackHere | ⟨word, grant, covers, _⟩
      · have apart := mapped.segments seg recorded
        rw [Segment.covers, decide_eq_true_eq] at covers
        unfold Apart at apart
        omega
      · rw [Sthread.onStack, decide_eq_true_eq] at stackHere
        exact onStack stackHere
      · obtain ⟨tag, member, names⟩ := context.grant grant
        have apart := mapped.tags tag member
        rw [grantCovers_tag names, Tag.covers, decide_eq_true_eq] at covers
        unfold Apart at apart
        omega

/-! The exit call. -/

/-- What `recycle` leaves of an sthread and of memory. -/
structure Recycled (w : Wedge) (s : Sthread PageTable) (mem : HostMem) (after : Sthread PageTable × HostMem) :
    Prop where
  id : after.1.id = s.id
  stack : after.1.stack = s.stack
  writable : after.1.writable = s.writable
  sc : after.1.sc = s.sc
  table : SameButUse after.1.pgroot (w.freshTable s)
  frame : ∀ addr, ¬ s.owns w addr → after.2 addr = mem addr
  copy : ∀ index page, (writablePages w.segments)[index / 4096]? = some page →
    after.2 (s.writable + index) =
      if (s.pgroot page).has pteD = true then mem (w.checkpointedMem + index) else mem (s.writable + index)
  blank : ∀ addr, s.stack ≤ addr → addr < s.stack + stackSize →
    after.2 addr = if (s.pgroot (addr / 4096)).has pteD = true then 0 else mem addr

theorem stack_page {stack addr : Nat} (aligned : stack % 4096 = 0) (user : stack + stackSize ≤ 2 ^ 47)
    (first : stack ≤ addr) (last : addr < stack + stackSize) :
    (pagesBetween stack (stack + stackSize - 4096))[(addr - stack) / 4096]? = some (addr / 4096) := by
  have size : stackSize = 40960 := by decide
  rw [pagesBetween, List.getElem?_range' (by omega)]
  congr 1
  omega

theorem freshTable_stack (ready : w.Ready) (lodged : Lodged w s.stack s.writable)
    (first : s.stack ≤ page * 4096) (last : page * 4096 < s.stack + stackSize) :
    (w.freshTable s page).has pteP = true ∧
      w.layout.hostAddr (pteAddr (w.freshTable s page)) = page * 4096 := by
  have user := lodged.stackMapped.user ready
  have bound : page < 2 ^ 36 := by omega
  obtain ⟨present, own⟩ := lodged.stackPages page first last
  rw [freshTable_other bound (lodged.stackMapped.unlisted user bound first last),
    if_neg (present_nonzero present), protectEntry_present, protectEntry_address]
  exact ⟨present, own⟩

theorem stackPages_nodup (stack : Nat) : (pagesBetween stack (stack + stackSize - 4096)).Nodup := by
  rw [pagesBetween]
  exact List.nodup_range'

theorem mem_stackPages {stack : Nat} (aligned : stack % 4096 = 0) (user : stack + stackSize ≤ 2 ^ 47) :
    page ∈ pagesBetween stack (stack + stackSize - 4096) ↔
      stack ≤ page * 4096 ∧ page * 4096 < stack + stackSize := by
  have size : stackSize = 40960 := by decide
  rw [mem_pagesBetween]
  omega

/-- The two passes of the exit call, as walks that count pages. -/
theorem recycle_turns (w : Wedge) (s : Sthread PageTable) (mem : HostMem) :
    ∃ middle last : (Nat × HostMem) × PageTable,
      recycle w s mem = ({ s with pgroot := last.2, walk := last.1.1 }, last.1.2) ∧
      (writablePages w.segments).foldl (pageTurn (refill s.writable
        (fun mem index => mem (w.checkpointedMem + index)) (· &&& ~~~ pteD))) ((0, mem), s.pgroot) = middle ∧
      (pagesBetween s.stack (s.stack + stackSize - 4096)).foldl
        (pageTurn (refill s.stack (fun _ _ => 0) id)) ((0, middle.1.2), middle.2) = last := by
  refine ⟨_, _, ?_, rfl, rfl⟩
  simp only [recycle, walkRecycle_steady, walkRecycleStack_steady]
  rw [eachWritable_pages, tableWalk, walkPages_steady]

/-- The walks of `recycle`: over the copy, then over the stack. -/
theorem recycle_passes (ready : w.Ready) (lodged : Lodged w s.stack s.writable)
    (same : SameButUse s.pgroot (w.freshTable s)) (mem : HostMem) :
    ∃ middle last, recycle w s mem = ({ s with pgroot := last.2, walk := last.1.1 }, last.1.2) ∧
      Refilled s.writable 0 (fun index => mem (w.checkpointedMem + index)) (· &&& ~~~ pteD)
        (writablePages w.segments) mem s.pgroot middle ∧
      Refilled s.stack 0 (fun _ => 0) id (pagesBetween s.stack (s.stack + stackSize - 4096)) middle.1.2
        middle.2 last := by
  have user := lodged.stackMapped.user ready
  have aligned := lodged.stackMapped.aligned
  have total := writablePages_length w.segments
  have size : stackSize = 40960 := by decide
  have copyPresent : ∀ page ∈ writablePages w.segments, s.pgroot page ≠ 0 := by
    intro page listed
    obtain ⟨turn, here⟩ := List.mem_iff_getElem?.mp listed
    apply present_nonzero
    rw [same.has (by decide), freshTable_copy ready here]
    exact copyEntry_present _ _
  have stable : ∀ one two : HostMem,
      (∀ addr, ¬ (s.writable ≤ addr ∧ addr < s.writable + w.size) → one addr = two addr) →
      ∀ index < w.size, one (w.checkpointedMem + index) = two (w.checkpointedMem + index) := by
    intro one two agree index inside
    have apart := lodged.copyCheckpoint
    apply agree
    unfold Apart at apart
    omega
  have copied := refill_fold s.writable 0 w.size (fun mem index => mem (w.checkpointedMem + index))
    (· &&& ~~~ pteD) mem (writablePages_nodup ready.distinct) copyPresent stable (by rw [Nat.zero_add, total]; exact Nat.le_refl _)
  obtain ⟨middle, last, result, first, second⟩ := recycle_turns w s mem
  rw [first] at copied
  have stackPresent : ∀ page ∈ pagesBetween s.stack (s.stack + stackSize - 4096), middle.2 page ≠ 0 := by
    intro page member
    obtain ⟨low, high⟩ := (mem_stackPages aligned user).mp member
    have unlisted : page ∉ writablePages w.segments :=
      lodged.stackMapped.unlisted user (by omega) low high
    rw [copied.entries, if_neg fun both => unlisted both.1]
    apply present_nonzero
    rw [same.has (by decide)]
    exact (freshTable_stack ready lodged low high).1
  have fits : 0 + 4096 * (pagesBetween s.stack (s.stack + stackSize - 4096)).length ≤ stackSize := by
    rw [pagesBetween, List.length_range']
    omega
  have blanked := refill_fold s.stack 0 stackSize (fun _ _ => 0) id middle.1.2 (stackPages_nodup s.stack) stackPresent (fun _ _ _ _ _ => rfl) fits
  rw [second] at blanked
  exact ⟨middle, last, result, copied, blanked⟩

theorem recycle_recycled (ready : w.Ready) (lodged : Lodged w s.stack s.writable)
    (same : SameButUse s.pgroot (w.freshTable s)) (mem : HostMem) :
    Recycled w s mem (recycle w s mem) := by
  obtain ⟨middle, last, result, copied, blanked⟩ := recycle_passes ready lodged same mem
  have user := lodged.stackMapped.user ready
  have aligned := lodged.stackMapped.aligned
  have total : 4096 * (writablePages w.segments).length = w.size := writablePages_length w.segments
  have stackTotal : 4096 * (pagesBetween s.stack (s.stack + stackSize - 4096)).length = stackSize := by
    have size : stackSize = 40960 := by decide
    rw [pagesBetween, List.length_range']
    omega
  have both := lodged.both
  have stackFrame : ∀ addr, ¬ (s.stack ≤ addr ∧ addr < s.stack + stackSize) → last.1.2 addr = middle.1.2 addr := by
    intro addr outside
    apply blanked.frame
    omega
  have copyFrame : ∀ addr, ¬ (s.writable ≤ addr ∧ addr < s.writable + w.size) → middle.1.2 addr = mem addr := by
    intro addr outside
    apply copied.frame
    omega
  rw [result]
  refine ⟨rfl, rfl, rfl, rfl, fun page => ?_, fun addr outside => ?_, fun index page here => ?_,
    fun addr low high => ?_⟩
  · have entry : last.2 page = middle.2 page := by
      rw [blanked.entries]
      split <;> rfl
    rw [← same page]
    simp only [entry, copied.entries]
    split
    · exact cleaned_masked _
    · rfl
  · unfold Sthread.owns at outside
    exact (stackFrame addr (by omega)).trans (copyFrame addr (by omega))
  · obtain ⟨inPages, _⟩ := List.getElem?_eq_some_iff.mp here
    have off : ¬ (s.stack ≤ s.writable + index ∧ s.writable + index < s.stack + stackSize) := by
      unfold Apart at both
      omega
    have bytes := copied.bytes index page here
    simp only [Nat.add_zero, Nat.zero_add] at bytes
    exact (stackFrame _ off).trans bytes
  · have off : ¬ (s.writable ≤ addr ∧ addr < s.writable + w.size) := by
      unfold Apart at both
      omega
    have pageLow : s.stack ≤ addr / 4096 * 4096 := by omega
    have pageHigh : addr / 4096 * 4096 < s.stack + stackSize := by omega
    have unlisted : addr / 4096 ∉ writablePages w.segments :=
      lodged.stackMapped.unlisted user (by omega) pageLow pageHigh
    have bytes := blanked.bytes (addr - s.stack) (addr / 4096) (stack_page aligned user low high)
    have sum : s.stack + 0 + (addr - s.stack) = addr := by omega
    have entry : middle.2 (addr / 4096) = s.pgroot (addr / 4096) := by
      rw [copied.entries]
      exact if_neg fun listed => unlisted listed.1
    rw [sum, entry, copyFrame addr off] at bytes
    exact bytes

end Fresh

end RdmaPaging
