import RdmaPaging.VmMapFresh
import RdmaPaging.VmSupply

/-!
Mappings entered one after another. What a root maps at an address is what the latest window that
holds the address puts there.
-/

namespace RdmaPaging

open RadixTree

/-- A stretch of addresses that is mapped at once. -/
structure Window where
  va : Nat
  len : Nat
  pa : PhysAddr
  perm : Perm
  deriving DecidableEq

def Window.holds (window : Window) (va : Nat) : Bool := window.va ≤ va && va < window.va + window.len

/-- The translation of an address of a window. -/
def Window.translation (window : Window) (va : Nat) : Option Translation :=
  if window.perm.has permR then
    some {
      pa := window.pa + BitVec.ofNat 64 (va - window.va)
      flags := getPtePerm window.perm
      writable := window.perm.has permW
      user := window.perm.has permU
      noExecute := !window.perm.has permX }
  else none

/-- The window that holds an address. The latest is the first of the list. -/
@[grind =] def latestWindow : List Window → Nat → Option Window
  | [], _ => none
  | window :: earlier, va => if window.holds va then some window else latestWindow earlier va

/-- What windows map at an address. -/
def windowsTranslate (windows : List Window) (va : Nat) : Option Translation :=
  (latestWindow windows va).bind (·.translation va)

/-- A window that the entries of its page size can hold. -/
structure Window.Proper (window : Window) : Prop where
  positive : 0 < window.len
  half : OneHalf window.va window.len
  vaAligned : mapSize window.perm ∣ window.va
  lenAligned : mapSize window.perm ∣ window.len
  paAligned : mapSize window.perm ∣ window.pa.toNat
  reach : window.pa.toNat + window.len ≤ 2 ^ 52

theorem Window.proper_iff {window : Window} : window.Proper ↔ 0 < window.len ∧
    OneHalf window.va window.len ∧ mapSize window.perm ∣ window.va ∧ mapSize window.perm ∣ window.len ∧
    mapSize window.perm ∣ window.pa.toNat ∧ window.pa.toNat + window.len ≤ 2 ^ 52 := by
  constructor
  · rintro ⟨positive, half, va, len, pa, reach⟩
    exact ⟨positive, half, va, len, pa, reach⟩
  · rintro ⟨positive, half, va, len, pa, reach⟩
    exact ⟨positive, half, va, len, pa, reach⟩

instance (va len : Nat) : Decidable (OneHalf va len) := inferInstanceAs (Decidable (_ ∨ _))

instance (window : Window) : Decidable window.Proper := decidable_of_iff _ Window.proper_iff.symm

/-- The leaf of an address under the latest window that holds it. -/
def LeafUnder (found : Option Window) (offset : Nat) (leaf : Nat × Ptent) : Prop :=
  match found with
  | none => leaf.2 = 0
  | some window => SameLeaf leaf (mapLevel window.perm, mappedWord window.va window.pa window.perm offset)

/-- The root holds what the windows put there, and nothing else. -/
structure Overlaid (root : PhysAddr) (windows : List Window) (vm : Vm) : Prop where
  built : RootBuilt vm root
  proper : ∀ window ∈ windows, window.Proper
  leaf : ∀ va, Canonical va → LeafUnder (latestWindow windows va) (va % 2 ^ 48) (leafOf vm.mem root va)

/-- The step from one state to the next enters a window. -/
structure EntersWindow (root : PhysAddr) (window : Window) (before after : Vm) : Prop where
  built : RootBuilt after root
  inside : ∀ offset < 2 ^ 48, InRange window.va window.len offset → SameLeaf (leafOf after.mem root offset)
    (mapLevel window.perm, mappedWord window.va window.pa window.perm offset)
  outside : ∀ offset < 2 ^ 48, ¬ InRange window.va window.len offset →
    SameLeaf (leafOf after.mem root offset) (leafOf before.mem root offset)

variable {root : PhysAddr} {window : Window} {windows : List Window} {vm next : Vm} {va : Nat}

theorem Window.holds_iff : window.holds va = true ↔ window.va ≤ va ∧ va < window.va + window.len := by
  simp [Window.holds]

/-- An address lies in a window exactly when its low 48 bits do. -/
theorem Window.Proper.holds_offset (proper : window.Proper) (canonical : Canonical va) :
    window.holds va = true ↔ InRange window.va window.len (va % 2 ^ 48) := by
  rw [Window.holds_iff, InRange]
  rcases proper.half with lower | ⟨upper, top⟩ <;> rcases canonical with below | ⟨above, small⟩ <;>
    constructor <;> rintro ⟨first, last⟩ <;> constructor <;> omega

theorem Overlaid.nil (built : RootBuilt vm root) (blank : ∀ va, (leafOf vm.mem root va).2 = 0) :
    Overlaid root [] vm :=
  ⟨built, nofun, fun va _ => blank va⟩

theorem LeafUnder.same {found : Option Window} {offset : Nat} {first second : Nat × Ptent}
    (under : LeafUnder found offset second) (same : SameLeaf first second) :
    LeafUnder found offset first := by
  cases found with
  | none => exact same.blank under
  | some window => exact same.trans under

/-- The new window hides the ones before it and no others. -/
theorem Overlaid.enter (overlaid : Overlaid root windows vm) (proper : window.Proper)
    (enters : EntersWindow root window vm next) : Overlaid root (window :: windows) next where
  built := enters.built
  proper := List.forall_mem_cons.mpr ⟨proper, overlaid.proper⟩
  leaf := by
    intro va canonical
    have bound := Nat.mod_lt va (show 0 < 2 ^ 48 by decide)
    by_cases held : window.holds va = true
    · rw [latestWindow, if_pos held, ← leafOf_canonical]
      exact enters.inside _ bound ((proper.holds_offset canonical).mp held)
    · rw [latestWindow, if_neg held]
      have same := enters.outside _ bound fun inside => held ((proper.holds_offset canonical).mpr inside)
      rw [leafOf_canonical, leafOf_canonical] at same
      exact (overlaid.leaf va canonical).same same

theorem latestWindow_mem {found : Window} (latest : latestWindow windows va = some found) :
    found ∈ windows ∧ found.holds va = true := by
  induction windows with
  | nil => simp [latestWindow] at latest
  | cons first rest ih =>
      rw [latestWindow] at latest
      split at latest
      · rename_i held
        obtain rfl := Option.some.inj latest
        exact ⟨List.mem_cons_self, held⟩
      · exact ⟨List.mem_cons_of_mem _ (ih latest).1, (ih latest).2⟩

/-! What the processor makes of the entries. -/

theorem mappedWord_present (va : Nat) (pa : PhysAddr) (perm : Perm) (offset : Nat) :
    ptePresent (mappedWord va pa perm offset) = perm.has permR := by
  have flag : mappedWord va pa perm offset &&& pteP = getPtePerm perm &&& pteP :=
    entered_flag _ perm (by decide)
  have masked : pteFlags (mappedWord va pa perm offset) &&& pteP = mappedWord va pa perm offset &&& pteP := by
    rw [pteFlags, BitVec.and_assoc]
    rfl
  rw [ptePresent, masked, flag, getPtePerm_p]
  cases perm.has permR <;> decide

theorem mappedWord_flags (va : Nat) (pa : PhysAddr) (perm : Perm) (offset : Nat) :
    pteFlags (mappedWord va pa perm offset) = getPtePerm perm := by
  have parts : ∀ pte : Ptent, pte = pteAddr pte ||| pteFlags pte := by
    intro pte
    rw [pteAddr, pteFlags, ← BitVec.and_or_distrib_left]
    exact (BitVec.and_allOnes).symm
  have none : ∀ pte : Ptent, pteFlags (pteAddr pte) = 0 := by
    intro pte
    rw [pteAddr, pteFlags, BitVec.and_assoc]
    exact BitVec.and_zero
  have split : ∀ first second : Ptent, pteFlags (first ||| second) = pteFlags first ||| pteFlags second :=
    fun _ _ => BitVec.and_or_distrib_right
  have only : pteFlags (getPtePerm perm) = getPtePerm perm := by
    have whole := parts (getPtePerm perm)
    rw [pteAddr_getPtePerm] at whole
    simpa using whole.symm
  rw [mappedWord, split, none, only]
  simp

/-- The entry of a window gives the translation of the window. -/
theorem Window.Proper.translates (proper : window.Proper) (held : window.holds va = true) :
    leafTranslates (mapLevel window.perm, mappedWord window.va window.pa window.perm (va % 2 ^ 48)) va =
      window.translation va := by
  obtain ⟨first, last⟩ := Window.holds_iff.mp held
  have half : OneHalf window.va (va - window.va + 1) := by
    rcases proper.half with lower | ⟨upper, top⟩
    · exact Or.inl (by omega)
    · exact Or.inr ⟨upper, by omega⟩
  have reach := proper.reach
  have address := mapped_pa (k := va - window.va) proper.vaAligned proper.paAligned (by omega) half
  rw [Nat.add_sub_cancel' first] at address
  have rights := mapped_rights window.va (va % 2 ^ 48) window.pa window.perm
    (pgshift + 9 * mapLevel window.perm) va
  have flags : (leafTranslation [] (mappedWord window.va window.pa window.perm (va % 2 ^ 48))
      (pgshift + 9 * mapLevel window.perm) va).flags = getPtePerm window.perm := mappedWord_flags _ _ _ _
  rw [leafTranslates, mappedWord_present, Window.translation]
  generalize leafTranslation [] (mappedWord window.va window.pa window.perm (va % 2 ^ 48))
    (pgshift + 9 * mapLevel window.perm) va = found at address rights flags
  obtain ⟨pa, entryFlags, writable, user, noExecute⟩ := found
  dsimp only at address rights flags
  rw [address, flags, rights.1, rights.2.1, rights.2.2]

/-- The processor translates every address as the windows say. -/
theorem Overlaid.translate (overlaid : Overlaid root windows vm) (canonical : Canonical va) :
    RdmaPaging.translate vm.mem root va = windowsTranslate windows va := by
  have under := overlaid.leaf va canonical
  rw [translate_leaf overlaid.built.forest, windowsTranslate]
  cases latest : latestWindow windows va with
  | none =>
      rw [latest] at under
      have absent : ptePresent 0 = false := by decide
      rw [leafTranslates, show (leafOf vm.mem root va).2 = 0 from under, absent]
      rfl
  | some found =>
      rw [latest] at under
      obtain ⟨member, held⟩ := latestWindow_mem latest
      rw [SameLeaf.translates under, (overlaid.proper found member).translates held]
      rfl

/-! Entering a window. -/

/-- The window may be entered where `other` is: it does not meet that window, or has no smaller pages. -/
def Window.Fits (window other : Window) : Prop :=
  other.va < window.va + window.len → window.va < other.va + other.len →
    mapLevel other.perm ≤ mapLevel window.perm

instance : DecidableRel Window.Fits := fun _ _ => inferInstanceAs (Decidable (_ → _ → _))

theorem Window.Proper.canonical (proper : window.Proper) (held : window.holds va = true) : Canonical va := by
  obtain ⟨first, last⟩ := Window.holds_iff.mp held
  rcases proper.half with lower | ⟨upper, top⟩
  · exact Or.inl (by omega)
  · exact Or.inr ⟨by omega, by omega⟩

/-- A leaf in the new window is of its level at most, or blank. -/
theorem Overlaid.small (overlaid : Overlaid root windows vm) (proper : window.Proper)
    (fits : ∀ other ∈ windows, window.Fits other) (held : window.holds va = true) :
    (leafOf vm.mem root va).1 ≤ mapLevel window.perm ∨ (leafOf vm.mem root va).2 = 0 := by
  have under := overlaid.leaf va (proper.canonical held)
  obtain ⟨first, last⟩ := Window.holds_iff.mp held
  cases latest : latestWindow windows va with
  | none =>
      rw [latest] at under
      exact Or.inr under
  | some found =>
      rw [latest] at under
      obtain ⟨member, inFound⟩ := latestWindow_mem latest
      obtain ⟨foundFirst, foundLast⟩ := Window.holds_iff.mp inFound
      rcases under with same | ⟨blank, _⟩
      · rw [same]
        exact Or.inl (fits found member (by omega) (by omega))
      · exact Or.inr blank

theorem Overlaid.noLarger (overlaid : Overlaid root windows vm) (proper : window.Proper)
    (fits : ∀ other ∈ windows, window.Fits other) :
    ¬ LargerEntry vm.mem root window.va window.len window.perm := by
  rintro ⟨at_, first, last, larger, big⟩
  rcases overlaid.small proper fits (Window.holds_iff.mpr ⟨first, last⟩) with small | blank
  · omega
  · rw [blank] at big
    exact absurd big (by decide)

theorem Overlaid.mapPhys (overlaid : Overlaid root windows vm) (proper : window.Proper)
    (fits : ∀ other ∈ windows, window.Fits other)
    (small : (vmMapPhys root window.va window.len window.pa window.perm vm).2.pool.numPages ≤ maxPages)
    (returns : (vmMapPhys root window.va window.len window.pa window.perm vm).1 = some 0) :
    Overlaid root (window :: windows) (vmMapPhys root window.va window.len window.pa window.perm vm).2 := by
  obtain ⟨inv, leaves⟩ := vmMapPhys_leaves overlaid.built proper.half proper.positive proper.vaAligned
    proper.lenAligned (overlaid.noLarger proper fits) small returns
  exact overlaid.enter proper ⟨inv.grounded, fun offset bound inside => leaves offset bound inside bound,
    inv.outside⟩

/-- A window of one 4 KB page. -/
structure Window.OnePage (window : Window) : Prop extends window.Proper where
  len : window.len = 4096
  level : mapLevel window.perm = 0

theorem Overlaid.enterPage {slot : PteRef} {looked : Vm} (overlaid : Overlaid root windows vm)
    (page : window.OnePage) (fits : ∀ other ∈ windows, window.Fits other)
    (looks : vmLookup root window.va .normal vm = (some (some slot), looked))
    (bounded : looked.pool.numPages ≤ maxPages) :
    Overlaid root (window :: windows)
      (looked.setPte slot (pteAddr window.pa ||| getPtePerm window.perm)) := by
  have len := page.len
  have size : mapSize window.perm = 4096 := by rw [mapSize, page.level, entrySpan_zero]
  have aligned : window.va % 4096 = 0 := Nat.mod_eq_zero_of_dvd (size ▸ page.vaAligned)
  have notBig : (leafOf vm.mem root window.va).1 = 0 ∨ (leafOf vm.mem root window.va).2 = 0 := by
    have small := overlaid.small page.toProper fits (Window.holds_iff.mpr ⟨Nat.le_refl _, by omega⟩)
    rw [page.level] at small
    exact small.imp_left Nat.le_zero.mp
  obtain ⟨table, rfl, sound, leads, same⟩ := lookup_page overlaid.built notBig looks bounded
  have bound := Nat.mod_lt window.va (show 0 < 2 ^ 48 by decide)
  have offsetLeads : tableFor looked.mem root 0 (window.va % 2 ^ 48) = some table := by
    rw [← leads]
    exact tableAt_route (Nat.zero_le 3) fun step _ small => pdx_canonical small window.va
  rw [← pdx_canonical (show 0 ≤ 3 by decide)]
  have stored : ∀ offset < 2 ^ 48, leafOf (setWord looked.mem table (pdx 0 (window.va % 2 ^ 48))
      (pteAddr window.pa ||| getPtePerm window.perm)) root offset =
      if offset / entrySpan 0 = window.va % 2 ^ 48 / entrySpan 0 then
        (0, pteAddr window.pa ||| getPtePerm window.perm)
      else leafOf looked.mem root offset :=
    fun offset inside => Grounded.store_leaf sound offsetLeads bound inside (by simp)
  refine overlaid.enter page.toProper ⟨?_, fun offset inside inRange => ?_, fun offset inside out => ?_⟩
  · exact sound.storeLeaf (tableFor_table leads) (pdx_bound _ _) (by simp) (by simp) sound.list sound.fresh
  · change SameLeaf (leafOf (setWord _ _ _ _) _ _) _
    obtain ⟨first, last⟩ := inRange
    have number : offset / entrySpan 0 = window.va % 2 ^ 48 / entrySpan 0 := by
      rw [entrySpan_zero]
      omega
    have start : blockStart 3 window.va + offset / mapSize window.perm * mapSize window.perm = window.va := by
      have span : entrySpan (3 + 1) = 2 ^ 48 := rfl
      rw [size, blockStart, span]
      omega
    rw [stored offset inside, if_pos number, mappedWord, start, page.level]
    exact Or.inl (by simp)
  · change SameLeaf (leafOf (setWord _ _ _ _) _ _) _
    rw [stored offset inside, if_neg]
    · exact same offset
    · intro number
      apply out
      rw [entrySpan_zero] at number
      exact ⟨by omega, by omega⟩

/-! A pool that has the tables. -/

/-- The tables that suffice for windows. -/
def windowTables (windows : List Window) : Nat := (windows.map fun window => tablesFor window.len).sum

/-- The windows are entered in a root whose tables come out of the pool `start`. -/
structure Supplied (start : PagePool) (root : PhysAddr) (windows : List Window) (vm : Vm) : Prop where
  list : FreeList start
  host : HostMaps start
  overlaid : Overlaid root windows vm
  drawn : ∃ used ≤ windowTables windows, Drawn start used vm.pool

variable {start : PagePool}

theorem windowTables_cons (window : Window) (windows : List Window) :
    windowTables (window :: windows) = tablesFor window.len + windowTables windows := by
  simp [windowTables]

theorem windowTables_append (first second : List Window) :
    windowTables (first ++ second) = windowTables first + windowTables second := by
  simp [windowTables]

theorem Drawn.within {pool : PagePool} {used count : Nat} (drawn : Drawn start used pool)
    (order : used ≤ count) (room : sizeAfter start count ≤ maxPages) : pool.numPages ≤ maxPages := by
  rw [drawn.took.numPages]
  exact Nat.le_trans (sizeAfter_mono start order) room

theorem Supplied.mapPhys (supplied : Supplied start root windows vm) (proper : window.Proper)
    (fits : ∀ other ∈ windows, window.Fits other)
    (room : sizeAfter start (windowTables (window :: windows)) ≤ maxPages) :
    ∃ next, vmMapPhys root window.va window.len window.pa window.perm vm = (some 0, next) ∧
      Supplied start root (window :: windows) next := by
  obtain ⟨used, order, drawn⟩ := supplied.drawn
  rw [windowTables_cons] at room
  obtain ⟨returns, more, bound, after⟩ := vmMapPhys_draws root window.pa window.perm proper.half
    proper.positive supplied.list supplied.host drawn
    (Nat.le_trans (sizeAfter_mono start (by omega)) room)
  have small := after.within (show used + more ≤ tablesFor window.len + windowTables windows by omega) room
  refine ⟨_, Prod.ext returns rfl, supplied.list, supplied.host,
    supplied.overlaid.mapPhys proper fits small returns, used + more, ?_, after⟩
  rw [windowTables_cons]
  omega

/-- A page entered by hand: the lookup finds its entry, and the store enters it. -/
theorem Supplied.enterPage (supplied : Supplied start root windows vm) (page : window.OnePage)
    (fits : ∀ other ∈ windows, window.Fits other)
    (room : sizeAfter start (windowTables (window :: windows)) ≤ maxPages) :
    ∃ slot looked, vmLookup root window.va .normal vm = (some (some slot), looked) ∧
      Supplied start root (window :: windows)
        (looked.setPte slot (pteAddr window.pa ||| getPtePerm window.perm)) := by
  obtain ⟨used, order, drawn⟩ := supplied.drawn
  have three : 3 ≤ tablesFor window.len := Nat.le_trans (by decide : 3 ≤ 6) (Nat.le_add_left 6 _)
  rw [windowTables_cons] at room
  obtain ⟨slot, looked, looks, more, bound, after⟩ := vmLookup_draws root window.va supplied.list
    supplied.host drawn (Nat.le_trans (sizeAfter_mono start (by omega)) room)
  have small := after.within (show used + more ≤ tablesFor window.len + windowTables windows by omega) room
  refine ⟨slot, looked, looks, supplied.list, supplied.host,
    supplied.overlaid.enterPage page fits looks small, used + more, ?_, after⟩
  rw [windowTables_cons]
  omega

/-! Calls, one after another. -/

/-- Windows that can be entered from the last of the list to the first. -/
structure Enterable (start : PagePool) (windows : List Window) : Prop where
  proper : ∀ window ∈ windows, window.Proper
  fits : windows.Pairwise Window.Fits
  room : sizeAfter start (windowTables windows) ≤ maxPages

/-- The call returns 0 and enters the windows. -/
def Enters (start : PagePool) (root : PhysAddr) (call : Vm → Option Int × Vm) (added : List Window) : Prop :=
  ∀ windows vm, Supplied start root windows vm → Enterable start (added ++ windows) →
    ∃ next, call vm = (some 0, next) ∧ Supplied start root (added ++ windows) next

theorem Enterable.earlier {added : List Window} (enterable : Enterable start (added ++ windows)) :
    Enterable start windows where
  proper := fun window member => enterable.proper window (List.mem_append_right _ member)
  fits := (List.pairwise_append.mp enterable.fits).2.1
  room := by
    have room := enterable.room
    rw [windowTables_append] at room
    exact Nat.le_trans (sizeAfter_mono start (Nat.le_add_left _ _)) room

variable {added later : List Window} {call second : Vm → Option Int × Vm}

theorem Enters.nothing : Enters start root (fun vm => (some 0, vm)) [] :=
  fun _ vm supplied _ => ⟨vm, rfl, supplied⟩

theorem Enters.andThen (first : Enters start root call added) (next : Enters start root second later) :
    Enters start root (fun vm => goOn (call vm) second) (later ++ added) := by
  intro windows vm supplied enterable
  rw [List.append_assoc] at enterable
  obtain ⟨middle, called, entered⟩ := first windows vm supplied enterable.earlier
  obtain ⟨final, ended, all⟩ := next (added ++ windows) middle entered enterable
  refine ⟨final, ?_, by rwa [List.append_assoc]⟩
  simp only [called, goOn_zero, ended]

theorem Enters.mapPhys (window : Window) :
    Enters start root (vmMapPhys root window.va window.len window.pa window.perm) [window] := by
  intro windows vm supplied enterable
  exact supplied.mapPhys (enterable.proper window List.mem_cons_self)
    (List.pairwise_cons.mp enterable.fits).1 enterable.room

end RdmaPaging
