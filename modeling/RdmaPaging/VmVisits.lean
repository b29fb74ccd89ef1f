import RdmaPaging.RadixLeaf
import RdmaPaging.VmTranslation
import RdmaPaging.VmUnmap

/-!
The entries that a walk without creation calls its function on. In a tree without repeated
tables a function that stores to its own entry only does not change which entries come after
it, so the walk calls it on a list of entries that the tables determine beforehand.
-/

namespace RdmaPaging

open RadixTree

variable {σ : Type*}

/-- A function of a walk over a state that the page tables are only a part of. -/
abbrev WalkCb (σ : Type*) := PteRef → Nat → σ → Option Int × σ

/-- Go on after the result zero. -/
def goOn (outcome : Option Int × σ) (next : σ → Option Int × σ) : Option Int × σ :=
  match outcome with
  | (some 0, state) => next state
  | stopped => stopped

def walkLoopOf (body : Nat → σ → Option Int × σ) : List Nat → σ → Option Int × σ
  | [], state => (some 0, state)
  | index :: rest, state => goOn (body index state) (walkLoopOf body rest)

/-- Where the walk of the table that an entry names starts and ends. -/
def belowStart (level startVa index : Nat) : Nat :=
  if index = pdx level startVa then startVa else curVa level startVa index

def belowEnd (level startVa endVa index : Nat) : Nat :=
  if index = pdx level endVa then endVa else (curVa level startVa index + pdaddr level 1 - 1) % 2 ^ 64

/-- `dune_vm_page_walk`, over any state with page tables in it. -/
def pageWalkOf (view : σ → PhysAddr → Nat → Ptent) (cb : WalkCb σ) :
    Nat → PhysAddr → Nat → Nat → σ → Option Int × σ
  | 0, dir, startVa, endVa, state =>
      walkLoopOf (fun index state =>
        if view state dir index ≠ 0 then cb ⟨dir, index⟩ (curVa 0 startVa index) state
        else (some 0, state)) (walkIndices 0 startVa endVa) state
  | level + 1, dir, startVa, endVa, state =>
      walkLoopOf (fun index state =>
        if bigSlot (level + 1) .none (view state dir index) then
          cb ⟨dir, index⟩ (curVa (level + 1) startVa index) state
        else if ptePresent (view state dir index) then
          pageWalkOf view cb level (pteAddr (view state dir index)) (belowStart (level + 1) startVa index)
            (belowEnd (level + 1) startVa endVa index) state
        else (some 0, state)) (walkIndices (level + 1) startVa endVa) state

theorem goOn_zero (state : σ) (next : σ → Option Int × σ) : goOn (some 0, state) next = next state :=
  rfl

theorem goOn_stop {outcome : Option Int × σ} (notZero : outcome.1 ≠ some 0)
    (next : σ → Option Int × σ) : goOn outcome next = outcome := by
  unfold goOn
  split
  · exact absurd rfl notZero
  · rfl

theorem goOn_assoc (outcome : Option Int × σ) (first second : σ → Option Int × σ) :
    goOn (goOn outcome first) second = goOn outcome fun state => goOn (first state) second := by
  by_cases zero : outcome.1 = some 0
  · obtain ⟨result, state⟩ := outcome
    obtain rfl : result = some 0 := zero
    rw [goOn_zero, goOn_zero]
  · rw [goOn_stop zero, goOn_stop zero, goOn_stop zero]

theorem walkLoop_eq (body : Nat → Vm → Option Int × Vm) (indices : List Nat) (vm : Vm) :
    walkLoop body indices vm = walkLoopOf body indices vm := by
  induction indices generalizing vm with
  | nil => rfl
  | cons index rest ih =>
      rw [walkLoop, walkLoopOf]
      split
      · rename_i next stepped
        rw [stepped, goOn_zero, ih]
      · rename_i notZero
        rw [goOn_stop]
        intro zero
        exact notZero _ (Prod.ext zero rfl)

/-- The walk of `vm.c` is this one. -/
theorem pageWalk_eq (cb : PageWalkCb) (level : Nat) (dir : PhysAddr) (startVa endVa : Nat) (vm : Vm) :
    pageWalk cb .none level dir startVa endVa vm = pageWalkOf Vm.mem cb level dir startVa endVa vm := by
  induction level generalizing dir startVa endVa vm with
  | zero =>
      rw [pageWalk, pageWalkOf, walkLoop_eq]
      congr 1
      funext index vm
      simp [walkLeaf]
  | succ level ih =>
      rw [pageWalk, pageWalkOf, walkLoop_eq]
      congr 1
      funext index vm
      simp only [walkEntry, ih, belowStart, belowEnd, if_true]

/-! The list of visits. -/

abbrev Visit := PteRef × Nat

/-- Call a function on entries in turn until its result is not zero. -/
@[grind =] def visitAll (cb : WalkCb σ) : List Visit → σ → Option Int × σ
  | [], state => (some 0, state)
  | (slot, va) :: rest, state => goOn (cb slot va state) (visitAll cb rest)

/-- The visits for one entry of a table of a higher level. -/
def turnVisits (mem : PhysAddr → Nat → Ptent) (level : Nat)
    (below : PhysAddr → Nat → Nat → List Visit) (dir : PhysAddr) (startVa endVa index : Nat) :
    List Visit :=
  if bigSlot level .none (mem dir index) then [(⟨dir, index⟩, curVa level startVa index)]
  else if ptePresent (mem dir index) then
    below (pteAddr (mem dir index)) (belowStart level startVa index) (belowEnd level startVa endVa index)
  else []

/-- The entries that a walk without creation visits, with the addresses they are visited for. -/
@[grind =] def visits (mem : PhysAddr → Nat → Ptent) : Nat → PhysAddr → Nat → Nat → List Visit
  | 0, dir, startVa, endVa => (walkIndices 0 startVa endVa).flatMap fun index =>
      if mem dir index ≠ 0 then [(⟨dir, index⟩, curVa 0 startVa index)] else []
  | level + 1, dir, startVa, endVa => (walkIndices (level + 1) startVa endVa).flatMap
      (turnVisits mem (level + 1) (visits mem level) dir startVa endVa)

/-- A function that stores to its own entry only. -/
def StoresOwn (view : σ → PhysAddr → Nat → Ptent) (cb : WalkCb σ) : Prop :=
  ∀ slot va state dir index, ¬ (dir = slot.dir ∧ index = slot.index) →
    view (cb slot va state).2 dir index = view state dir index

/-- No table occurs twice in the tree at `dir`. -/
def Distinct (mem : PhysAddr → Nat → Ptent) (level : Nat) (dir : PhysAddr) : Prop :=
  ∀ page, occurrences nptentries tableOf mem page level dir ≤ 1

theorem visitAll_keeps {cb : WalkCb σ} (kept : σ → Prop)
    (keeps : ∀ slot va state, kept state → kept (cb slot va state).2) (list : List Visit) (state : σ)
    (holds : kept state) : kept (visitAll cb list state).2 := by
  induction list generalizing state with
  | nil => exact holds
  | cons visit rest ih =>
      obtain ⟨slot, va⟩ := visit
      have first := keeps slot va state holds
      unfold visitAll goOn
      split
      · rename_i next called
        rw [called] at first
        exact ih next first
      · exact first

theorem visitAll_single (cb : WalkCb σ) (slot : PteRef) (va : Nat) (state : σ) :
    visitAll cb [(slot, va)] state = cb slot va state := by
  rw [visitAll]
  by_cases zero : (cb slot va state).1 = some 0
  · obtain ⟨next, called⟩ : ∃ next, cb slot va state = (some 0, next) :=
      ⟨(cb slot va state).2, Prod.ext zero rfl⟩
    rw [called]
    rfl
  · rw [goOn_stop zero]

theorem visitAll_append (cb : WalkCb σ) (first second : List Visit) (state : σ) :
    visitAll cb (first ++ second) state = goOn (visitAll cb first state) (visitAll cb second) := by
  induction first generalizing state with
  | nil => rfl
  | cons visit rest ih =>
      obtain ⟨slot, va⟩ := visit
      rw [List.cons_append, visitAll, visitAll, goOn_assoc, funext ih]

section Frame

variable {view : σ → PhysAddr → Nat → Ptent} {cb : WalkCb σ}

theorem visitAll_frame (own : StoresOwn view cb) (list : List Visit) (state : σ) (dir : PhysAddr)
    (index : Nat) (apart : ∀ visit ∈ list, ¬ (dir = visit.1.dir ∧ index = visit.1.index)) :
    view (visitAll cb list state).2 dir index = view state dir index := by
  induction list generalizing state with
  | nil => rfl
  | cons visit rest ih =>
      obtain ⟨slot, va⟩ := visit
      have first := own slot va state dir index (apart (slot, va) (by simp))
      unfold visitAll goOn
      split
      · rename_i next called
        rw [called] at first
        rw [ih next fun visit member => apart visit (by simp [member])]
        exact first
      · exact first

/-- A loop whose turns read different words. `reads index` are the words that the turn for
`index` depends on. -/
theorem walkLoopOf_visits (own : StoresOwn view cb) {body : Nat → σ → Option Int × σ}
    {lists : Nat → List Visit} (mem : PhysAddr → Nat → Ptent) (reads : Nat → PhysAddr → Nat → Prop)
    (indices : List Nat) (nodup : indices.Nodup)
    (each : ∀ index ∈ indices, ∀ state, (∀ dir position, reads index dir position →
      view state dir position = mem dir position) → body index state = visitAll cb (lists index) state)
    (apart : ∀ index ∈ indices, ∀ other ∈ indices, other ≠ index → ∀ visit ∈ lists index,
      ¬ reads other visit.1.dir visit.1.index)
    (state : σ) (same : ∀ index ∈ indices, ∀ dir position, reads index dir position →
      view state dir position = mem dir position) :
    walkLoopOf body indices state = visitAll cb (indices.flatMap lists) state := by
  induction indices generalizing state with
  | nil => rfl
  | cons index rest ih =>
      obtain ⟨notAgain, restNodup⟩ := List.nodup_cons.mp nodup
      have here := each index (by simp) state (same index (by simp))
      rw [walkLoopOf, List.flatMap_cons, visitAll_append, here]
      unfold goOn
      split
      · rename_i next called
        apply ih restNodup
        · intro other member
          exact each other (by simp [member])
        · intro first firstMember second secondMember
          exact apart first (by simp [firstMember]) second (by simp [secondMember])
        · intro other member dir position reads
          have untouched := visitAll_frame own (lists index) state dir position
            fun visit inList => by
              rintro ⟨rfl, rfl⟩
              refine apart index (by simp) other (by simp [member]) ?_ visit inList reads
              rintro rfl
              exact notAgain member
          rw [called] at untouched
          rw [untouched]
          exact same other (by simp [member]) dir position reads
      · rfl

end Frame

/-! Which entries are visited. -/

theorem pdx_mod (level va : Nat) : pdx level va = va % entrySpan (level + 1) / entrySpan level := by
  rw [pdx_eq, entrySpan_succ, Nat.mul_comm, Nat.mod_mul_right_div_self]

/-- The offset of an address in what a table spans, by its index and the rest. -/
theorem offset_split (level va : Nat) :
    va % entrySpan (level + 2) = pdx (level + 1) va * entrySpan (level + 1) + va % entrySpan (level + 1) := by
  have inner := Nat.mod_mod_of_dvd va (entrySpan_dvd (Nat.le_succ (level + 1)))
  rw [pdx_mod, ← inner, Nat.div_add_mod']

theorem lex_le {width p q x y : Nat} (xBound : x < width) (yBound : y < width) :
    p * width + x ≤ q * width + y ↔ p < q ∨ p = q ∧ x ≤ y := by
  rcases Nat.lt_trichotomy p q with less | same | more
  · have next := Nat.mul_le_mul_right width less
    rw [Nat.succ_mul] at next
    simp only [less, true_or, iff_true]
    omega
  · subst same
    simp
  · have next := Nat.mul_le_mul_right width more
    rw [Nat.succ_mul] at next
    constructor
    · intro order
      omega
    · rintro (less | ⟨same, _⟩) <;> omega

section Numbers

variable {low level : Nat} (below : low ≤ level)

include below

theorem span_ratio : ∃ width, entrySpan level = width * entrySpan low := by
  obtain ⟨width, span⟩ := entrySpan_dvd below
  exact ⟨width, by rw [span, Nat.mul_comm]⟩

/-- Entries are in the order of the index above them, then of their place below it. -/
theorem number_le {p q r t : Nat} (rBound : r < entrySpan level) (tBound : t < entrySpan level) :
    (p * entrySpan level + r) / entrySpan low ≤ (q * entrySpan level + t) / entrySpan low ↔
      p < q ∨ p = q ∧ r / entrySpan low ≤ t / entrySpan low := by
  obtain ⟨width, span⟩ := span_ratio below
  have pos := entrySpan_pos low
  have split : ∀ i x, (i * entrySpan level + x) / entrySpan low = i * width + x / entrySpan low := by
    intro i x
    rw [span, ← Nat.mul_assoc, Nat.mul_comm, Nat.mul_add_div pos]
  rw [split, split]
  rw [span] at rBound tBound
  exact lex_le (Nat.div_lt_of_lt_mul (by rwa [Nat.mul_comm])) (Nat.div_lt_of_lt_mul (by rwa [Nat.mul_comm]))

end Numbers

theorem curVa_mod (level startVa index : Nat) : curVa level startVa index % entrySpan level = 0 := by
  rw [curVa_block, Nat.add_mul_mod_self_right]
  exact Nat.mod_eq_zero_of_dvd
    (Nat.dvd_trans (entrySpan_dvd (Nat.le_succ level)) (blockStart_aligned level startVa))

theorem belowEnd_mod {level startVa endVa index : Nat} (bound : level ≤ 3)
    (notLast : index ≠ pdx level endVa) :
    belowEnd level startVa endVa index % entrySpan level = entrySpan level - 1 := by
  have pos := entrySpan_pos level
  have one : pdaddr level 1 = entrySpan level := by rw [pdaddr, Nat.one_mul, entrySpan]
  have divides : entrySpan level ∣ 2 ^ 64 := Nat.pow_dvd_pow 2 (by unfold pgshift; omega)
  obtain ⟨times, cur⟩ := Nat.dvd_of_mod_eq_zero (curVa_mod level startVa index)
  rw [belowEnd, if_neg notLast, one, Nat.mod_mod_of_dvd _ divides, cur]
  have value : entrySpan level * times + entrySpan level - 1 =
      entrySpan level * times + (entrySpan level - 1) := by omega
  rw [value, Nat.mul_add_mod, Nat.mod_eq_of_lt (by omega)]

section Bounds

variable {low level startVa endVa index offset : Nat} (below : low ≤ level)
  (inside : offset < entrySpan (level + 1))

include below inside

theorem first_iff :
    startVa % entrySpan (level + 2) / entrySpan low ≤
        (index * entrySpan (level + 1) + offset) / entrySpan low ↔
      pdx (level + 1) startVa ≤ index ∧
        belowStart (level + 1) startVa index % entrySpan (level + 1) / entrySpan low ≤
          offset / entrySpan low := by
  have startBound := Nat.mod_lt startVa (entrySpan_pos (level + 1))
  rw [offset_split, number_le (by omega) startBound inside, belowStart]
  by_cases same : index = pdx (level + 1) startVa
  · rw [if_pos same]
    omega
  · rw [if_neg same, curVa_mod, Nat.zero_div]
    simp only [Nat.zero_le, and_true]
    omega

theorem last_iff (bound : level ≤ 2) :
    (index * entrySpan (level + 1) + offset) / entrySpan low ≤
        endVa % entrySpan (level + 2) / entrySpan low ↔
      index ≤ pdx (level + 1) endVa ∧ offset / entrySpan low ≤
        belowEnd (level + 1) startVa endVa index % entrySpan (level + 1) / entrySpan low := by
  have endBound := Nat.mod_lt endVa (entrySpan_pos (level + 1))
  rw [offset_split, number_le (by omega) inside endBound]
  by_cases same : index = pdx (level + 1) endVa
  · rw [belowEnd, if_pos same]
    omega
  · rw [belowEnd_mod (by omega) same]
    have most : offset / entrySpan low ≤ (entrySpan (level + 1) - 1) / entrySpan low :=
      Nat.div_le_div_right (by omega)
    omega

end Bounds

/-- A walk calls its function for the word. -/
def visitedWord (low : Nat) (pte : Ptent) : Bool :=
  if low = 0 then pte ≠ 0 else bigSlot low .none pte

/-- `slot` is the entry of level `low` for the addresses with an offset in what the table `dir`
spans, it is one that a walk calls its function for, and it is between the entries for the
first and the last address of the walk. -/
structure VisitAt (mem : PhysAddr → Nat → Ptent) (level : Nat) (dir : PhysAddr) (startVa endVa : Nat)
    (slot : PteRef) (va low offset : Nat) : Prop where
  inside : offset < entrySpan (level + 1)
  table : tableAt tableOf mem (fun step => pdx step offset) low level dir = some slot.dir
  index : slot.index = pdx low offset
  word : visitedWord low (mem slot.dir slot.index) = true
  first : startVa % entrySpan (level + 1) / entrySpan low ≤ offset / entrySpan low
  last : offset / entrySpan low ≤ endVa % entrySpan (level + 1) / entrySpan low
  address : va = blockStart level startVa + offset / entrySpan low * entrySpan low

theorem mem_walkIndices {level startVa endVa index : Nat} :
    index ∈ walkIndices level startVa endVa ↔
      pdx level startVa ≤ index ∧ index ≤ pdx level endVa := by
  simp only [walkIndices, List.mem_range'_1]
  omega

theorem pdx_offset {low level : Nat} (below : low ≤ level) (index offset : Nat) :
    pdx low (index * entrySpan (level + 1) + offset) = pdx low offset := by
  obtain ⟨times, span⟩ := entrySpan_dvd (show low + 1 ≤ level + 1 by omega)
  rw [pdx_mod, pdx_mod, span, Nat.mul_left_comm, Nat.mul_add_mod]

theorem pdx_of_offset {level index offset : Nat} (bound : index < nptentries)
    (inside : offset < entrySpan level) : pdx level (index * entrySpan level + offset) = index := by
  rw [pdx_eq, Nat.mul_comm, Nat.mul_add_div (entrySpan_pos level), Nat.div_eq_of_lt inside, Nat.add_zero,
    Nat.mod_eq_of_lt bound]

theorem index_offset_lt {level index offset : Nat} (bound : index < nptentries)
    (inside : offset < entrySpan level) :
    index * entrySpan level + offset < entrySpan (level + 1) := by
  have next := Nat.mul_le_mul_right (entrySpan level) (Nat.succ_le_of_lt bound)
  rw [Nat.succ_mul] at next
  rw [entrySpan_succ]
  omega

/-- A way to a table depends on the indices above it only. -/
theorem tableAt_route {mem : PhysAddr → Nat → Ptent} {route other : Nat → Nat} {low level : Nat}
    {dir : PhysAddr} (lowBound : low ≤ level)
    (same : ∀ step, low < step → step ≤ level → other step = route step) :
    tableAt tableOf mem other low level dir = tableAt tableOf mem route low level dir := by
  induction level generalizing dir with
  | zero => rfl
  | succ level ih =>
      rw [tableAt, tableAt]
      split
      · rfl
      · rename_i lower
        rw [same (level + 1) (by omega) (Nat.le_refl _)]
        split
        · exact ih (by omega) fun step above bound => same step above (by omega)
        · rfl

section Members

variable {mem : PhysAddr → Nat → Ptent} {level startVa endVa va low offset index : Nat}
variable {dir below : PhysAddr} {slot : PteRef}

/-- An entry of the table that a walk is at. -/
theorem visitAt_here (inRange : index ∈ walkIndices level startVa endVa)
    (word : visitedWord level (mem dir index) = true) :
    VisitAt mem level dir startVa endVa ⟨dir, index⟩ (curVa level startVa index) level
      (index * entrySpan level) := by
  have bound := walkIndices_bound inRange
  obtain ⟨first, last⟩ := mem_walkIndices.mp inRange
  have pos := entrySpan_pos level
  have number : index * entrySpan level / entrySpan level = index := Nat.mul_div_cancel _ pos
  have position : pdx level (index * entrySpan level) = index := by
    have value := pdx_of_offset bound pos
    rwa [Nat.add_zero] at value
  have inside : index * entrySpan level < entrySpan (level + 1) := by
    have value := index_offset_lt bound pos
    rwa [Nat.add_zero] at value
  refine ⟨inside, tableAt_self level dir, position.symm, word, ?_, ?_, ?_⟩
  · rw [number, ← pdx_mod]
    exact first
  · rw [number, ← pdx_mod]
    exact last
  · rw [number, curVa_block]

theorem blockStart_below (level startVa index : Nat) :
    blockStart level (belowStart (level + 1) startVa index) =
      blockStart (level + 1) startVa + index * entrySpan (level + 1) := by
  rw [belowStart]
  split
  · rename_i same
    rw [same, pdx_floor, blockStart]
  · rw [blockStart, Nat.div_mul_cancel (Nat.dvd_of_mod_eq_zero (curVa_mod _ _ _)), curVa_block]

theorem floor_split (lowBound : low ≤ level) (index offset : Nat) :
    (index * entrySpan level + offset) / entrySpan low * entrySpan low =
      index * entrySpan level + offset / entrySpan low * entrySpan low := by
  obtain ⟨width, span⟩ := span_ratio lowBound
  rw [span, ← Nat.mul_assoc, Nat.mul_comm (index * width), Nat.mul_add_div (entrySpan_pos low),
    Nat.add_mul, Nat.mul_comm (entrySpan low)]

/-- An entry of a table further down. -/
theorem VisitAt.above (bound : level ≤ 2) (indexBound : index < nptentries)
    (firstIndex : pdx (level + 1) startVa ≤ index) (lastIndex : index ≤ pdx (level + 1) endVa)
    (names : tableOf level (mem dir index) = some below)
    (visit : VisitAt mem level below (belowStart (level + 1) startVa index)
      (belowEnd (level + 1) startVa endVa index) slot va low offset) :
    VisitAt mem (level + 1) dir startVa endVa slot va low (index * entrySpan (level + 1) + offset) := by
  have lowBound := tableAt_le visit.table
  have position := pdx_of_offset indexBound visit.inside
  have route : ∀ step ≤ level, pdx step (index * entrySpan (level + 1) + offset) = pdx step offset :=
    fun step le => pdx_offset le index offset
  refine ⟨index_offset_lt indexBound visit.inside, ?_, ?_, visit.word, ?_, ?_, ?_⟩
  · rw [tableAt, if_neg (by omega), position, names]
    simp only
    rw [tableAt_route lowBound fun step _ le => route step le]
    exact visit.table
  · rw [visit.index, route low lowBound]
  · exact (first_iff lowBound visit.inside).mpr ⟨firstIndex, visit.first⟩
  · exact (last_iff lowBound visit.inside bound).mpr ⟨lastIndex, visit.last⟩
  · rw [visit.address, blockStart_below, floor_split (by omega), Nat.add_assoc]

theorem VisitAt.here (visit : VisitAt mem level dir startVa endVa slot va level offset) :
    slot.dir = dir ∧ slot.index ∈ walkIndices level startVa endVa ∧
      va = curVa level startVa slot.index := by
  have isDir := visit.table
  rw [tableAt_self, Option.some.injEq] at isDir
  have number : offset / entrySpan level = slot.index := by
    rw [visit.index, pdx_mod, Nat.mod_eq_of_lt visit.inside]
  have first := visit.first
  have last := visit.last
  have address := visit.address
  rw [number, ← pdx_mod] at first last
  rw [number, ← curVa_block] at address
  exact ⟨isDir.symm, mem_walkIndices.mpr ⟨first, last⟩, address⟩

theorem VisitAt.under (bound : level ≤ 2) (lower : low ≠ level + 1)
    (visit : VisitAt mem (level + 1) dir startVa endVa slot va low offset) :
    ∃ index below, index ∈ walkIndices (level + 1) startVa endVa ∧
      tableOf level (mem dir index) = some below ∧
      VisitAt mem level below (belowStart (level + 1) startVa index)
        (belowEnd (level + 1) startVa endVa index) slot va low (offset % entrySpan (level + 1)) := by
  have lowBound := tableAt_le visit.table
  have rest := Nat.mod_lt offset (entrySpan_pos (level + 1))
  have split : offset = pdx (level + 1) offset * entrySpan (level + 1) + offset % entrySpan (level + 1) := by
    rw [← offset_split, Nat.mod_eq_of_lt visit.inside]
  have route : ∀ step ≤ level, pdx step offset = pdx step (offset % entrySpan (level + 1)) := by
    intro step le
    have same := pdx_offset le (pdx (level + 1) offset) (offset % entrySpan (level + 1))
    rw [← split] at same
    exact same
  have first := visit.first
  have last := visit.last
  have address := visit.address
  have leads := visit.table
  rw [split, first_iff (by omega) rest] at first
  rw [split, last_iff (by omega) rest bound] at last
  rw [split, floor_split (by omega), ← Nat.add_assoc, ← blockStart_below] at address
  rw [tableAt, if_neg lower] at leads
  split at leads
  · rename_i below names
    refine ⟨pdx (level + 1) offset, below, mem_walkIndices.mpr ⟨first.1, last.1⟩, names, rest, ?_, ?_,
      visit.word, first.2, last.2, address⟩
    · rw [← leads]
      exact tableAt_route (by omega) fun step _ le => (route step le).symm
    · rw [visit.index, route low (by omega)]
  · simp at leads

/-- The entries that a walk visits. -/
theorem mem_visits_iff (bound : level ≤ 3) :
    (slot, va) ∈ visits mem level dir startVa endVa ↔
      ∃ low offset, VisitAt mem level dir startVa endVa slot va low offset := by
  induction level generalizing dir startVa endVa with
  | zero =>
      simp only [visits, List.mem_flatMap]
      constructor
      · rintro ⟨index, inRange, member⟩
        split at member
        · rename_i nonzero
          obtain ⟨rfl, rfl⟩ : slot = ⟨dir, index⟩ ∧ va = curVa 0 startVa index := by simpa using member
          exact ⟨0, _, visitAt_here inRange (by simpa [visitedWord] using nonzero)⟩
        · simp at member
      · rintro ⟨low, offset, visit⟩
        obtain rfl : low = 0 := Nat.le_zero.mp (tableAt_le visit.table)
        obtain ⟨isDir, inRange, address⟩ := visit.here
        have nonzero : mem slot.dir slot.index ≠ 0 := by simpa [visitedWord] using visit.word
        subst isDir
        refine ⟨slot.index, inRange, ?_⟩
        rw [if_pos nonzero, address]
        simp
  | succ level ih =>
      simp only [visits, turnVisits, List.mem_flatMap]
      constructor
      · rintro ⟨index, inRange, member⟩
        split at member
        · rename_i big
          obtain ⟨rfl, rfl⟩ : slot = ⟨dir, index⟩ ∧ va = curVa (level + 1) startVa index := by
            simpa using member
          exact ⟨level + 1, _, visitAt_here inRange (by simpa [visitedWord] using big)⟩
        · rename_i small
          split at member
          · rename_i present
            obtain ⟨low, offset, visit⟩ := (ih (by omega)).mp member
            obtain ⟨first, last⟩ := mem_walkIndices.mp inRange
            exact ⟨low, _, visit.above (by omega) (walkIndices_bound inRange) first last
              (tableOf_present (by simpa using small) present)⟩
          · simp at member
      · rintro ⟨low, offset, visit⟩
        by_cases top : low = level + 1
        · subst top
          obtain ⟨isDir, inRange, address⟩ := visit.here
          have big : bigSlot (level + 1) .none (mem slot.dir slot.index) = true := by
            simpa [visitedWord] using visit.word
          subst isDir
          refine ⟨slot.index, inRange, ?_⟩
          rw [if_pos big, address]
          simp
        · obtain ⟨index, below, inRange, names, deeper⟩ := visit.under (by omega) top
          obtain ⟨small, present, isBelow⟩ := tableOf_some names
          refine ⟨index, inRange, ?_⟩
          rw [if_neg (by simp [small]), if_pos present, isBelow]
          exact (ih (by omega)).mpr ⟨low, _, deeper⟩

end Members

/-! The walk is the list of its visits. -/

section Walk

variable {mem next : PhysAddr → Nat → Ptent} {level startVa endVa index other low lower : Nat}
variable {dir below beside table : PhysAddr} {visit : Visit}

theorem Distinct.named (distinct : Distinct mem (level + 1) dir) (bound : index < nptentries)
    (names : tableOf level (mem dir index) = some below) : Distinct mem level below :=
  fun page => Nat.le_trans (occurrences_through bound names) (distinct page)

theorem Distinct.ne_root (distinct : Distinct mem (level + 1) dir) (bound : index < nptentries)
    (names : tableOf level (mem dir index) = some below)
    (inside : Within nptentries tableOf mem level below low table) : table ≠ dir := by
  rintro rfl
  exact not_within_of_occurrences (occurrences_below_root bound names (distinct table)) inside

theorem Distinct.ne_beside (distinct : Distinct mem (level + 1) dir) (bound : index < nptentries)
    (names : tableOf level (mem dir index) = some below) (otherBound : other < nptentries)
    (different : other ≠ index) (otherNames : tableOf level (mem dir other) = some beside)
    (inside : Within nptentries tableOf mem level below low table) :
    ¬ Within nptentries tableOf mem level beside lower table := by
  intro again
  have both : occurrences nptentries tableOf mem table level below +
      occurrences nptentries tableOf mem table level beside ≤
      occurrences nptentries tableOf mem table (level + 1) dir :=
    occurrences_beside bound names otherBound different otherNames
  have once := distinct table
  have here := inside.occurs
  have there := again.occurs
  omega

theorem Distinct.congr (distinct : Distinct mem level dir)
    (agree : ∀ low table, Within nptentries tableOf mem level dir low table →
      ∀ index < nptentries, next table index = mem table index) : Distinct next level dir := by
  intro page
  rw [occurrences, weigh_congr level dir agree]
  exact distinct page

/-- The tables of a tree depend on its pointers only. -/
theorem Distinct.same_pointers (distinct : Distinct mem level dir)
    (pointers : ∀ low table, Within nptentries tableOf mem level dir (low + 1) table →
      ∀ index < nptentries, tableOf low (next table index) = tableOf low (mem table index)) :
    Distinct next level dir := by
  intro page
  rw [occurrences_pointers pointers]
  exact distinct page

theorem visits_within (bound : level ≤ 3) (member : visit ∈ visits mem level dir startVa endVa) :
    visit.1.index < nptentries ∧
      ∃ low, Within nptentries tableOf mem level dir low visit.1.dir := by
  obtain ⟨slot, va⟩ := visit
  obtain ⟨low, offset, at_⟩ := (mem_visits_iff bound).mp member
  refine ⟨at_.index ▸ pdx_bound low offset, low, ?_⟩
  exact tableAt_within (fun step => pdx_bound step offset) at_.table

/-- The words that the turn of a walk for an entry reads: the entry, and the tables below it. -/
def readsAt (mem : PhysAddr → Nat → Ptent) (level : Nat) (dir : PhysAddr) (index : Nat)
    (table : PhysAddr) (position : Nat) : Prop :=
  (table = dir ∧ position = index) ∨ ∃ below low, tableOf level (mem dir index) = some below ∧
    Within nptentries tableOf mem level below low table ∧ position < nptentries

/-- The visits depend on which words are visited and on the pointers to tables only. -/
theorem visits_same (words : ∀ low table, Within nptentries tableOf mem level dir low table →
      ∀ index < nptentries, visitedWord low (next table index) = visitedWord low (mem table index))
    (pointers : ∀ low table, Within nptentries tableOf mem level dir (low + 1) table →
      ∀ index < nptentries, tableOf low (next table index) = tableOf low (mem table index)) :
    visits next level dir startVa endVa = visits mem level dir startVa endVa := by
  induction level generalizing dir startVa endVa with
  | zero =>
      simp only [visits]
      apply List.flatMap_congr
      intro index inRange
      have word := words 0 dir (.here 0 dir) index (walkIndices_bound inRange)
      have same : next dir index ≠ 0 ↔ mem dir index ≠ 0 :=
        not_congr (by simpa [visitedWord] using word)
      simp only [same]
  | succ level ih =>
      simp only [visits]
      apply List.flatMap_congr
      intro index inRange
      have bound := walkIndices_bound inRange
      have word := words _ dir (.here _ dir) index bound
      have pointer := pointers level dir (.here _ dir) index bound
      have big : bigSlot (level + 1) .none (next dir index) =
          bigSlot (level + 1) .none (mem dir index) := by simpa [visitedWord] using word
      rw [turnVisits, turnVisits, big]
      split
      · rfl
      · rename_i small
        have isSmall : bigSlot (level + 1) .none (mem dir index) = false := by simpa using small
        rw [tableOf, tableOf, big, if_neg small, if_neg small] at pointer
        by_cases present : ptePresent (mem dir index) = true
        · rw [if_pos present] at pointer
          split at pointer
          · rename_i presentNow
            rw [if_pos presentNow, if_pos present, Option.some.inj pointer]
            have points := tableOf_present isSmall present
            exact ih (fun low table inside => words low table (.under bound points inside))
              fun low table inside => pointers low table (.under bound points inside)
          · simp at pointer
        · rw [if_neg present] at pointer
          split at pointer
          · simp at pointer
          · rename_i absentNow
            rw [if_neg absentNow, if_neg present]

theorem visits_congr (agree : ∀ low table, Within nptentries tableOf mem level dir low table →
      ∀ index < nptentries, next table index = mem table index) :
    visits next level dir startVa endVa = visits mem level dir startVa endVa := by
  apply visits_same
  · intro low table inside index bound
    rw [agree low table inside index bound]
  · intro low table inside index bound
    rw [agree _ table inside index bound]

theorem walkIndices_nodup (level startVa endVa : Nat) : (walkIndices level startVa endVa).Nodup :=
  List.nodup_range'

theorem turn_reads (bound : level ≤ 3)
    (member : visit ∈ turnVisits mem (level + 1) (visits mem level) dir startVa endVa index) :
    readsAt mem level dir index visit.1.dir visit.1.index := by
  unfold turnVisits at member
  split at member
  · obtain rfl := List.mem_singleton.mp member
    exact Or.inl ⟨rfl, rfl⟩
  · rename_i small
    split at member
    · rename_i present
      obtain ⟨positionBound, low, inside⟩ := visits_within bound member
      exact Or.inr ⟨_, low, tableOf_present (by simpa using small) present, inside, positionBound⟩
    · simp at member

/-- The visits of one turn do not touch the words that another turn reads. -/
theorem Distinct.turn_apart (bound : level ≤ 2) (distinct : Distinct mem (level + 1) dir)
    (indexBound : index < nptentries) (otherBound : other < nptentries) (different : other ≠ index)
    (member : visit ∈ turnVisits mem (level + 1) (visits mem level) dir startVa endVa index) :
    ¬ readsAt mem level dir other visit.1.dir visit.1.index := by
  unfold turnVisits at member
  split at member
  · obtain rfl := List.mem_singleton.mp member
    rintro (⟨_, same⟩ | ⟨beside, low, names, inside, _⟩)
    · exact different same.symm
    · exact distinct.ne_root otherBound names inside rfl
  · rename_i small
    split at member
    · rename_i present
      have points := tableOf_present (by simpa using small) present
      obtain ⟨_, low, inside⟩ := visits_within (by omega) member
      rintro (⟨isDir, _⟩ | ⟨beside, lower, names, again, _⟩)
      · exact distinct.ne_root indexBound points inside isDir
      · exact distinct.ne_beside indexBound points otherBound different names inside again
    · simp at member

/-- The rule of walks without creation. -/
theorem pageWalkOf_visits {view : σ → PhysAddr → Nat → Ptent} {cb : WalkCb σ}
    (own : StoresOwn view cb) (bound : level ≤ 3) (state : σ)
    (distinct : Distinct (view state) level dir) :
    pageWalkOf view cb level dir startVa endVa state =
      visitAll cb (visits (view state) level dir startVa endVa) state := by
  induction level generalizing dir startVa endVa state with
  | zero =>
      rw [pageWalkOf, visits]
      refine walkLoopOf_visits own (view state)
        (fun index table position => table = dir ∧ position = index) _ (walkIndices_nodup _ _ _)
        ?_ ?_ state (fun _ _ _ _ _ => rfl)
      · intro index _ now same
        rw [same dir index ⟨rfl, rfl⟩]
        split
        · rw [visitAll_single]
        · rfl
      · intro index _ other _ different visit member
        split at member
        · obtain rfl := List.mem_singleton.mp member
          rintro ⟨_, same⟩
          exact different same.symm
        · simp at member
  | succ level ih =>
      rw [pageWalkOf, visits]
      refine walkLoopOf_visits own (view state) (readsAt (view state) level dir) _
        (walkIndices_nodup _ _ _) ?_ ?_ state (fun _ _ _ _ _ => rfl)
      · intro index inRange now same
        have indexBound := walkIndices_bound inRange
        rw [same dir index (Or.inl ⟨rfl, rfl⟩), turnVisits]
        split
        · rw [visitAll_single]
        · rename_i small
          split
          · rename_i present
            have points := tableOf_present (by simpa using small) present
            have agree : ∀ low table, Within nptentries tableOf (view state) level
                (pteAddr (view state dir index)) low table → ∀ position < nptentries,
                view now table position = view state table position := by
              intro low table inside position positionBound
              exact same table position (Or.inr ⟨_, low, points, inside, positionBound⟩)
            rw [ih (by omega) now ((distinct.named indexBound points).congr agree),
              visits_congr agree]
          · rfl
      · intro index inRange other otherRange different visit member
        exact distinct.turn_apart (by omega) (walkIndices_bound inRange) (walkIndices_bound otherRange)
          different member

/-- No entry is visited twice. -/
theorem visits_nodup (bound : level ≤ 3) (distinct : Distinct mem level dir) (startVa endVa : Nat) :
    ((visits mem level dir startVa endVa).map Prod.fst).Nodup := by
  induction level generalizing dir startVa endVa with
  | zero =>
      rw [visits, List.map_flatMap, List.nodup_flatMap]
      refine ⟨fun index _ => ?_, (walkIndices_nodup _ _ _).pairwise_of_forall_ne ?_⟩
      · split <;> simp
      · intro index _ other _ different slot here there
        have position : ∀ index, slot ∈ List.map Prod.fst (if mem dir index ≠ 0 then
            [((⟨dir, index⟩ : PteRef), curVa 0 startVa index)] else []) → slot.index = index := by
          intro index member
          split at member <;> simp_all
        exact different ((position index here).symm.trans (position other there))
  | succ level ih =>
      rw [visits, List.map_flatMap, List.nodup_flatMap]
      refine ⟨fun index inRange => ?_, (walkIndices_nodup _ _ _).pairwise_of_forall_ne ?_⟩
      · unfold turnVisits
        split
        · simp
        · rename_i small
          split
          · rename_i present
            have points := tableOf_present (by simpa using small) present
            exact ih (by omega) (distinct.named (walkIndices_bound inRange) points) _ _
          · simp
      · intro index inRange other otherRange different slot here there
        obtain ⟨visit, inTurn, rfl⟩ := List.mem_map.mp here
        obtain ⟨again, inOther, same⟩ := List.mem_map.mp there
        refine distinct.turn_apart (by omega) (walkIndices_bound inRange)
          (walkIndices_bound otherRange) (Ne.symm different) inTurn ?_
        rw [← same]
        exact turn_reads (by omega) inOther

/-- A function that stores to its own entry what it makes of the word and the address. -/
def StoresWord (view : σ → PhysAddr → Nat → Ptent) (cb : WalkCb σ) (word : Nat → Ptent → Ptent) : Prop :=
  ∀ slot va state, (cb slot va state).1 = some 0 ∧ view (cb slot va state).2 =
    setWord (view state) slot.dir slot.index (word va (view state slot.dir slot.index))

section Stores

variable {view : σ → PhysAddr → Nat → Ptent} {cb : WalkCb σ} {word : Nat → Ptent → Ptent}

theorem StoresWord.own (stores : StoresWord view cb word) : StoresOwn view cb := by
  intro slot va state dir index elsewhere
  rw [(stores slot va state).2, setWord, if_neg elsewhere]

theorem StoresWord.visitAll (stores : StoresWord view cb word) (list : List Visit)
    (nodup : (list.map Prod.fst).Nodup) (state : σ) :
    (visitAll cb list state).1 = some 0 ∧ ∀ visit ∈ list,
      view (RdmaPaging.visitAll cb list state).2 visit.1.dir visit.1.index =
        word visit.2 (view state visit.1.dir visit.1.index) := by
  induction list generalizing state with
  | nil => exact ⟨rfl, by simp⟩
  | cons first rest ih =>
      obtain ⟨slot, va⟩ := first
      obtain ⟨notAgain, restNodup⟩ := List.nodup_cons.mp nodup
      have elsewhere : ∀ visit ∈ rest, ¬ (slot.dir = visit.1.dir ∧ slot.index = visit.1.index) := by
        rintro visit member ⟨sameDir, sameIndex⟩
        apply notAgain
        rw [List.mem_map]
        refine ⟨visit, member, ?_⟩
        cases slot
        cases visit.1
        simp_all
      obtain ⟨returns, stored⟩ := stores slot va state
      rcases called : cb slot va state with ⟨result, next⟩
      rw [called] at returns stored
      simp only at returns stored
      rw [RdmaPaging.visitAll, called, returns, goOn_zero]
      obtain ⟨result, others⟩ := ih restNodup next
      refine ⟨result, fun visit member => ?_⟩
      rcases List.mem_cons.mp member with rfl | inRest
      · rw [visitAll_frame stores.own rest next _ _ elsewhere, stored, setWord, if_pos ⟨rfl, rfl⟩]
      · rw [others visit inRest, stored, setWord, if_neg]
        rintro ⟨sameDir, sameIndex⟩
        exact elsewhere visit inRest ⟨sameDir.symm, sameIndex.symm⟩

end Stores

end Walk

end RdmaPaging
