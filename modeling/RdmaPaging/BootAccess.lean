import RdmaPaging.BootMappings
import RdmaPaging.EptRace

/-!
The process in the guest. With the full map the guest's tables send every address that the process
can have to the guest-physical address by which the kernel module knows it, so that the EPT leads
on to the process's own memory.
-/

namespace RdmaPaging

/-- The address space of a process: the mappings and the stack lie above the page pool, in this
order. -/
structure MmStruct.Ordered (mm : MmStruct) : Prop where
  mmapAbove : pageBase.toNat + maxPages * 4096 ≤ mm.mmapStart.toNat
  stackAbove : mm.mmapStart.toNat ≤ mm.stackStart.toNat
  mmapHalf : mm.mmapStart.toNat + gpaMapSize.toNat ≤ 2 ^ 47
  stackHalf : mm.stackStart.toNat + gpaStackSize.toNat ≤ 2 ^ 47

/-- The window does not meet the page pool. -/
def Window.ApartFromPool (window : Window) : Prop :=
  window.va + window.len ≤ pageBase.toNat ∨ pageBase.toNat + maxPages * 4096 ≤ window.va

/-- The window lies in the stack region, in the mapping region or below both. -/
def Window.InRegion (window : Window) (mm : MmStruct) : Prop :=
  window.va + window.len ≤ mm.mmapStart.toNat ∨
    mm.mmapStart.toNat ≤ window.va ∧ window.va + window.len ≤ mm.stackStart.toNat ∨
      mm.stackStart.toNat ≤ window.va

instance (window : Window) : Decidable window.ApartFromPool := inferInstanceAs (Decidable (_ ∨ _))

instance (window : Window) (mm : MmStruct) : Decidable (window.InRegion mm) :=
  inferInstanceAs (Decidable (_ ∨ _ ∨ _))

/-- The pages of code that `dune_init` puts in the place of others. -/
def codeWindows (boot : BootProcess) (page : VirtAddr) (entries : List ProcmapEntry) : List Window :=
  syscallWindows boot page ++ vsyscallWindow boot :: (entries.filterMap (vdsoWindow boot)).reverse

/-- The windows of the full map. -/
def wholeWindows (boot : BootProcess) : List Window :=
  [stackWindow boot, mapWindow boot, lowWindow, pageWindow boot]

/-- The regions that the full map covers. -/
def InFullMap (mm : MmStruct) (va : VirtAddr) : Prop :=
  va.toNat < 2 ^ 32 ∨ pageBase.toNat ≤ va.toNat ∧ va.toNat < pageBase.toNat + maxPages * 4096 ∨
    mm.mmapStart ≤ va

section Full

variable {boot : BootProcess} {page : VirtAddr} {entries : List ProcmapEntry} {threads : ThreadList}
variable {physBits : Nat} {mm : MmStruct} {va : VirtAddr}

theorem startWindows_full : startWindows boot true page entries threads =
    (threadsWindows threads ++ codeWindows boot page entries) ++ wholeWindows boot := by
  simp [startWindows, bootWindows, codeWindows, wholeWindows]

theorem threadsWindows_ptr {window : Window} (member : window ∈ threadsWindows threads) :
    ∃ pair ∈ threads, ∃ p len, window = ptrWindow pair.1.layout p len := by
  induction threads with
  | nil => exact absurd member List.not_mem_nil
  | cons pair rest ih =>
      rcases List.mem_append.mp member with later | first
      · obtain ⟨other, inRest, isPtr⟩ := ih later
        exact ⟨other, List.mem_cons_of_mem _ inRest, isPtr⟩
      · refine ⟨pair, List.mem_cons_self, ?_⟩
        simp only [threadWindows, List.mem_append, List.mem_reverse, List.mem_filterMap, List.mem_cons,
          List.not_mem_nil, or_false] at first
        rcases first with ⟨ent, _, stack⟩ | safe | percpu
        · rw [stackRegion, Option.ite_none_right_eq_some] at stack
          exact ⟨_, _, (Option.some.inj stack.2).symm⟩
        · exact ⟨_, _, safe⟩
        · exact ⟨_, _, percpu⟩

theorem pageWindow_same (layout : boot.layout = getLayout physBits mm) (ordered : mm.Ordered) :
    pageWindow boot = ⟨pageBase.toNat, maxPages * 4096, pageBase, permR ||| permW ||| permBig⟩ := by
  have stack : ¬ mm.stackStart ≤ pageBase := by
    have above := ordered.stackAbove
    have first := ordered.mmapAbove
    rw [BitVec.le_def]
    unfold maxPages at first
    omega
  have map : ¬ mm.mmapStart ≤ pageBase := by
    have first := ordered.mmapAbove
    rw [BitVec.le_def]
    unfold maxPages at first
    omega
  have own : duneVaToPa (getLayout physBits mm) pageBase = pageBase := by
    rw [duneVaToPa]
    change (if mm.stackStart ≤ pageBase then _ else if mm.mmapStart ≤ pageBase then _ else _) = _
    rw [if_neg stack, if_neg map]
  rw [pageWindow, layout, own]

theorem mapWindow_va (layout : boot.layout = getLayout physBits mm) :
    (mapWindow boot).va = mm.mmapStart.toNat ∧ (stackWindow boot).va = mm.stackStart.toNat := by
  rw [mapWindow, stackWindow, layout]
  exact ⟨rfl, rfl⟩

theorem Window.ApartFromPool.fits {window : Window} (apart : window.ApartFromPool) :
    window.Fits (pageWindow boot) := by
  intro first last
  rcases apart with below | above
  · exact absurd first (Nat.not_lt.mpr below)
  · exact absurd last (Nat.not_lt.mpr above)

theorem latestWindow_append (first second : List Window) (at_ : Nat) :
    latestWindow (first ++ second) at_ = (latestWindow first at_).or (latestWindow second at_) := by
  induction first with
  | nil => rfl
  | cons window rest ih =>
      rw [List.cons_append, latestWindow, latestWindow]
      split
      · rfl
      · exact ih

theorem latestWindow_none {windows : List Window} {at_ : Nat}
    (none : ∀ window ∈ windows, window.holds at_ = false) : latestWindow windows at_ = .none := by
  induction windows with
  | nil => rfl
  | cons window rest ih =>
      rw [latestWindow, none window List.mem_cons_self, if_neg (by simp)]
      exact ih fun other member => none other (List.mem_cons_of_mem _ member)

/-- The window puts an address where libdune has it, and the guest may write there. -/
def Window.Own (window : Window) (layout : DuneLayout) (va : VirtAddr) : Prop :=
  window.perm.has permR = true ∧ window.perm.has permW = true ∧
    window.pa + BitVec.ofNat 64 (va.toNat - window.va) = duneVaToPa layout va

theorem Window.Own.translation {window : Window} {layout : DuneLayout} (own : window.Own layout va) :
    ∃ guest, window.translation va.toNat = some guest ∧ guest.pa = duneVaToPa layout va ∧
      guest.writable = true := by
  obtain ⟨readable, writable, address⟩ := own
  refine ⟨_, if_pos readable, address, writable⟩

/-- Two addresses of one region are as far apart for the guest as they are in the process. -/
theorem duneVaToPa_add {layout : DuneLayout} {first offset : VirtAddr}
    (stack : layout.stackBase ≤ first ↔ layout.stackBase ≤ first + offset)
    (map : ¬ layout.stackBase ≤ first → (layout.mmapBase ≤ first ↔ layout.mmapBase ≤ first + offset)) :
    duneVaToPa layout (first + offset) = duneVaToPa layout first + offset := by
  simp only [duneVaToPa, duneStackAddrToPa, duneMmapAddrToPa]
  by_cases inStack : layout.stackBase ≤ first
  · rw [if_pos inStack, if_pos (stack.mp inStack)]
    ring
  · rw [if_neg inStack, if_neg (fun above => inStack (stack.mpr above))]
    by_cases inMap : layout.mmapBase ≤ first
    · rw [if_pos inMap, if_pos ((map inStack).mp inMap)]
      ring
    · rw [if_neg inMap, if_neg (fun above => inMap ((map inStack).mpr above))]

theorem offset_add {first : VirtAddr} (order : first.toNat ≤ va.toNat) :
    first + BitVec.ofNat 64 (va.toNat - first.toNat) = va := by
  apply BitVec.eq_of_toNat_eq
  have bound := va.isLt
  rw [BitVec.toNat_add, BitVec.toNat_ofNat]
  omega

theorem readWrite_rights : (permR ||| permW).has permR = true ∧ (permR ||| permW).has permW = true := by
  decide

theorem full_rights : permFull.has permR = true ∧ permFull.has permW = true := by decide

theorem ptrWindow_own {p : VirtAddr} {len : BitVec 32}
    (region : (ptrWindow (getLayout physBits mm) p len).InRegion mm) (ordered : mm.Ordered)
    (held : (ptrWindow (getLayout physBits mm) p len).holds va.toNat = true) :
    (ptrWindow (getLayout physBits mm) p len).Own (getLayout physBits mm) va := by
  obtain ⟨first, last⟩ := Window.holds_iff.mp held
  change (pgAddrOf p).toNat ≤ va.toNat at first
  have order := ordered.stackAbove
  have sum := offset_add first
  have start : (ptrWindow (getLayout physBits mm) p len).va = (pgAddrOf p).toNat := rfl
  rw [Window.InRegion, start] at region
  rw [start] at last
  have stack : mm.stackStart ≤ pgAddrOf p ↔ mm.stackStart ≤ va := by
    rw [BitVec.le_def, BitVec.le_def]
    rcases region with below | ⟨_, below⟩ | above <;> omega
  have map : ¬ mm.stackStart ≤ pgAddrOf p → (mm.mmapStart ≤ pgAddrOf p ↔ mm.mmapStart ≤ va) := by
    rw [BitVec.le_def, BitVec.le_def, BitVec.le_def]
    rcases region with below | ⟨_, below⟩ | above <;> omega
  rw [← sum] at stack map
  refine ⟨readWrite_rights.1, readWrite_rights.2, ?_⟩
  have address : (ptrWindow (getLayout physBits mm) p len).pa =
      duneVaToPa (getLayout physBits mm) (pgAddrOf p) := rfl
  rw [start, address, ← duneVaToPa_add stack map, sum]

theorem stackWindow_own (layout : boot.layout = getLayout physBits mm)
    (held : (stackWindow boot).holds va.toNat = true) :
    (stackWindow boot).Own (getLayout physBits mm) va := by
  obtain ⟨first, _⟩ := Window.holds_iff.mp held
  rw [(mapWindow_va layout).2] at first
  have sum := offset_add first
  have inStack : mm.stackStart ≤ va := BitVec.le_def.mpr first
  refine ⟨full_rights.1, full_rights.2, ?_⟩
  have own : duneVaToPa (getLayout physBits mm) va = duneStackAddrToPa (getLayout physBits mm) va :=
    if_pos inStack
  rw [(mapWindow_va layout).2, own]
  nth_rewrite 2 [← sum]
  have base : (getLayout physBits mm).stackBase = mm.stackStart := rfl
  simp only [stackWindow, layout, duneStackAddrToPa, base]
  ring

theorem mapWindow_own (layout : boot.layout = getLayout physBits mm) (below : ¬ mm.stackStart ≤ va)
    (held : (mapWindow boot).holds va.toNat = true) : (mapWindow boot).Own (getLayout physBits mm) va := by
  obtain ⟨first, _⟩ := Window.holds_iff.mp held
  rw [(mapWindow_va layout).1] at first
  have sum := offset_add first
  have inMap : mm.mmapStart ≤ va := BitVec.le_def.mpr first
  refine ⟨full_rights.1, full_rights.2, ?_⟩
  have own : duneVaToPa (getLayout physBits mm) va = duneMmapAddrToPa (getLayout physBits mm) va := by
    rw [duneVaToPa]
    exact (if_neg below).trans (if_pos inMap)
  rw [(mapWindow_va layout).1, own]
  nth_rewrite 2 [← sum]
  have base : (getLayout physBits mm).mmapBase = mm.mmapStart := rfl
  simp only [mapWindow, layout, duneMmapAddrToPa, base]
  ring

/-- Below the mappings addresses are the same in the guest. -/
theorem duneVaToPa_low (ordered : mm.Ordered) (below : ¬ mm.mmapStart ≤ va) :
    duneVaToPa (getLayout physBits mm) va = va := by
  have notStack : ¬ mm.stackStart ≤ va := by
    have order := ordered.stackAbove
    rw [BitVec.le_def] at below ⊢
    omega
  rw [duneVaToPa]
  exact (if_neg notStack).trans (if_neg below)

theorem lowWindow_own (ordered : mm.Ordered) (below : ¬ mm.mmapStart ≤ va) :
    lowWindow.Own (getLayout physBits mm) va := by
  refine ⟨full_rights.1, full_rights.2, ?_⟩
  rw [duneVaToPa_low ordered below]
  simp [lowWindow]

theorem pageWindow_own (layout : boot.layout = getLayout physBits mm) (ordered : mm.Ordered)
    (below : ¬ mm.mmapStart ≤ va) (held : (pageWindow boot).holds va.toNat = true) :
    (pageWindow boot).Own (getLayout physBits mm) va := by
  obtain ⟨first, _⟩ := Window.holds_iff.mp held
  rw [pageWindow_same layout ordered] at first ⊢
  have rights : (permR ||| permW ||| permBig).has permR = true ∧
      (permR ||| permW ||| permBig).has permW = true := by decide
  refine ⟨rights.1, rights.2, ?_⟩
  rw [duneVaToPa_low ordered below]
  exact offset_add first

/-- What the threads and the code pages leave of the full map. -/
theorem whole_latest (layout : boot.layout = getLayout physBits mm) (ordered : mm.Ordered)
    (valid : hvaToGpa physBits mm va ≠ addrInval) (inFull : InFullMap mm va) : ∃ window,
    latestWindow (wholeWindows boot) va.toNat = some window ∧ window.Own (getLayout physBits mm) va := by
  obtain ⟨mapVa, stackVa⟩ := mapWindow_va layout
  have cases := hvaToGpa_cases valid
  simp only [wholeWindows, latestWindow]
  by_cases inStack : (stackWindow boot).holds va.toNat = true
  · rw [if_pos inStack]
    exact ⟨_, rfl, stackWindow_own layout inStack⟩
  · rw [if_neg inStack]
    have notStack : ¬ mm.stackStart ≤ va := by
      intro above
      rcases cases with ⟨_, inside, _⟩ | ⟨below, _⟩ | ⟨below, _⟩
      · apply inStack
        rw [Window.holds_iff, stackVa]
        rw [BitVec.lt_def, BitVec.toNat_sub_of_le above] at inside
        rw [BitVec.le_def] at above
        exact ⟨above, show va.toNat < mm.stackStart.toNat + gpaStackSize.toNat by omega⟩
      · exact below above
      · exact below above
    by_cases inMap : (mapWindow boot).holds va.toNat = true
    · rw [if_pos inMap]
      exact ⟨_, rfl, mapWindow_own layout notStack inMap⟩
    · rw [if_neg inMap]
      have notMap : ¬ mm.mmapStart ≤ va := by
        intro above
        rcases cases with ⟨stack, _⟩ | ⟨_, _, inside, _⟩ | ⟨_, below, _⟩
        · exact notStack stack
        · apply inMap
          rw [Window.holds_iff, mapVa]
          rw [BitVec.lt_def, BitVec.toNat_sub_of_le above] at inside
          rw [BitVec.le_def] at above
          exact ⟨above, show va.toNat < mm.mmapStart.toNat + gpaMapSize.toNat by omega⟩
        · exact below above
      by_cases low : lowWindow.holds va.toNat = true
      · rw [if_pos low]
        exact ⟨_, rfl, lowWindow_own ordered notMap⟩
      · rw [if_neg low]
        have inPool : (pageWindow boot).holds va.toNat = true := by
          rcases inFull with small | ⟨first, last⟩ | mapped
          · exact absurd (Window.holds_iff.mpr ⟨Nat.zero_le _, (Nat.zero_add (2 ^ 32)).symm ▸ small⟩) low
          · exact Window.holds_iff.mpr ⟨first, last⟩
          · exact absurd mapped notMap
        rw [if_pos inPool]
        exact ⟨_, rfl, pageWindow_own layout ordered notMap inPool⟩

/-- A process that starts with the full map. Its code pages and the blocks of its threads keep off the
pool, and no block crosses from one region into the next. -/
structure FullStart (physBits : Nat) (mm : MmStruct) (boot : BootProcess) (page : VirtAddr)
    (entries : List ProcmapEntry) (threads : ThreadList) : Prop where
  ready : boot.Ready page entries
  listed : ∀ pair ∈ threads, duneProcmapIterate pair.1.uninit pair.1.maps = some pair.2
  layout : boot.layout = getLayout physBits mm
  layouts : ∀ pair ∈ threads, pair.1.layout = getLayout physBits mm
  ordered : mm.Ordered
  proper : ∀ window ∈ threadsWindows threads ++ codeWindows boot page entries, window.Proper
  apart : ∀ window ∈ threadsWindows threads ++ codeWindows boot page entries, window.ApartFromPool
  regions : ∀ window ∈ threadsWindows threads, window.InRegion mm
  few : windowTables (threadsWindows threads ++ codeWindows boot page entries) ≤ 2 ^ 19

/-- The latest window of every address outside the code pages is one that the process has there. -/
theorem FullStart.latest (full : FullStart physBits mm boot page entries threads)
    (valid : hvaToGpa physBits mm va ≠ addrInval) (inFull : InFullMap mm va)
    (noCode : ∀ window ∈ codeWindows boot page entries, window.holds va.toNat = false) : ∃ window,
    latestWindow (startWindows boot true page entries threads) va.toNat = some window ∧
      window.Own (getLayout physBits mm) va := by
  rw [startWindows_full, latestWindow_append, latestWindow_append, latestWindow_none noCode, Option.or_none]
  cases inThread : latestWindow (threadsWindows threads) va.toNat with
  | none =>
      rw [Option.none_or]
      exact whole_latest full.layout full.ordered valid inFull
  | some window =>
      obtain ⟨member, held⟩ := latestWindow_mem inThread
      obtain ⟨pair, inThreads, p, len, isPtr⟩ := threadsWindows_ptr member
      have region := full.regions window member
      rw [full.layouts pair inThreads] at isPtr
      rw [isPtr] at held region
      rw [Option.some_or, isPtr]
      exact ⟨_, rfl, ptrWindow_own region full.ordered held⟩

end Full

end RdmaPaging
