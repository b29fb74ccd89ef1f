import Mathlib.Data.List.Find
import RdmaPaging.RunSteps
import RdmaPaging.SthreadCalls

/-!
The rights of an sthread to file descriptors, over its life: the words of `sc_fd`, searched up to the
first match, against the descriptors that were granted, opened and closed.
-/

namespace RdmaPaging

open RunSteps

/-- A descriptor with a protection. -/
abbrev FdGrant := BitVec 32 × BitVec 32

/-- The low half of the word that `sc_fd_add` makes. -/
def fdWord (grant : FdGrant) : BitVec 32 := (grant.1 <<< 8) ||| grant.2

/-- `sc_fd` holds the listed grants in order. -/
structure FdList (sc : Sc) (listed : List FdGrant) : Prop where
  words : sc.fd = (listed.map fun grant => (fdWord grant).signExtend 64) ++
    List.replicate (8 - listed.length) 0
  bound : listed.length ≤ 8
  small : ∀ grant ∈ listed, grant.1.toNat < 2 ^ 23 ∧ grant.2.toNat < 16
  nonzero : ∀ grant ∈ listed, fdWord grant ≠ 0

/-! Words. -/

section Words

variable {fd prot : BitVec 32} {sc next : Sc} {listed : List FdGrant}

theorem fdWord_toNat (smallProt : prot.toNat < 16) :
    (fdWord (fd, prot)).toNat = fd.toNat % 2 ^ 24 * 256 + prot.toNat := by
  have shifted : (fd <<< 8).toNat = (fd.toNat % 2 ^ 24) <<< 8 := by
    rw [BitVec.toNat_shiftLeft, Nat.shiftLeft_eq, Nat.shiftLeft_eq]
    omega
  have joined := Nat.shiftLeft_add_eq_or_of_lt (show prot.toNat < 2 ^ 8 by omega) (fd.toNat % 2 ^ 24)
  rw [fdWord, BitVec.toNat_or, shifted, ← joined, Nat.shiftLeft_eq]

theorem signExtend_cases (word : BitVec 32) :
    word.toNat < 2 ^ 31 ∧ (word.signExtend 64).toNat = word.toNat ∨
      2 ^ 31 ≤ word.toNat ∧ (word.signExtend 64).toNat = word.toNat + (2 ^ 64 - 2 ^ 32) := by
  have bound := word.isLt
  rw [BitVec.toNat_signExtend, BitVec.toNat_setWidth, BitVec.msb_eq_decide, Nat.mod_eq_of_lt (by omega)]
  simp only [decide_eq_true_eq]
  split <;> omega

/-- The two assertions of `sc_fd_add`. -/
theorem fdWord_fits : ((fdWord (fd, prot)).signExtend 64 >>> 8 = fd.signExtend 64 ∧
    (fdWord (fd, prot)).signExtend 64 &&& 0xf#64 = prot.signExtend 64) ↔
      fd.toNat < 2 ^ 23 ∧ prot.toNat < 16 := by
  have low : ∀ word : BitVec 64, (word &&& 0xf#64).toNat = word.toNat % 16 := by
    intro word
    exact (BitVec.toNat_and ..).trans (Nat.and_two_pow_sub_one_eq_mod word.toNat 4)
  have fdCases := signExtend_cases fd
  have protCases := signExtend_cases prot
  have wordCases := signExtend_cases (fdWord (fd, prot))
  have fdBound := fd.isLt
  rw [← BitVec.toNat_inj, ← BitVec.toNat_inj, low, BitVec.toNat_ushiftRight, Nat.shiftRight_eq_div_pow]
  constructor
  · rintro ⟨number, bits⟩
    have smallProt : prot.toNat < 16 := by omega
    have word := @fdWord_toNat fd prot smallProt
    omega
  · rintro ⟨smallFd, smallProt⟩
    have word := @fdWord_toNat fd prot smallProt
    omega

theorem fdWord_number (smallFd : fd.toNat < 2 ^ 23) (smallProt : prot.toNat < 16) :
    (fdWord (fd, prot)).sshiftRight 8 = fd := by
  have word := @fdWord_toNat fd prot smallProt
  have positive : (fdWord (fd, prot)).msb = false := by
    rw [BitVec.msb_eq_decide, decide_eq_false_iff_not]
    omega
  apply BitVec.eq_of_toNat_eq
  rw [BitVec.sshiftRight_eq_of_msb_false positive, BitVec.toNat_ushiftRight, Nat.shiftRight_eq_div_pow]
  omega

theorem fdWord_prot (smallProt : prot.toNat < 16) :
    fdWord (fd, prot) &&& 0xf#32 = prot := by
  have word := @fdWord_toNat fd prot smallProt
  apply BitVec.eq_of_toNat_eq
  have low : (fdWord (fd, prot) &&& 0xf#32).toNat = (fdWord (fd, prot)).toNat % 16 :=
    (BitVec.toNat_and ..).trans (Nat.and_two_pow_sub_one_eq_mod _ 4)
  omega

/-- The grants that a list holds after another one. A word that is zero ends the list where it is. -/
def addGrant (listed : List FdGrant) (grant : FdGrant) : List FdGrant :=
  if fdWord grant = 0 then listed else listed ++ [grant]

theorem signExtend_low (word : BitVec 32) : (word.signExtend 64).setWidth 32 = word := by
  apply BitVec.eq_of_toNat_eq
  have bound := word.isLt
  rw [BitVec.toNat_setWidth]
  rcases signExtend_cases word with ⟨_, value⟩ | ⟨_, value⟩ <;> omega

theorem signExtend_zero {word : BitVec 32} : word.signExtend 64 = 0 ↔ word = 0 := by
  constructor
  · intro zero
    rw [← signExtend_low word, zero]
    rfl
  · rintro rfl
    rfl

theorem FdList.firstFree (list : FdList sc listed) : sc.fd.findIdx (· = 0) = listed.length := by
  have none : (listed.map fun grant => (fdWord grant).signExtend 64).findIdx (· = 0) = listed.length := by
    have words : (listed.map fun grant => (fdWord grant).signExtend 64).length = listed.length :=
      List.length_map _
    rw [← words, List.findIdx_eq_length]
    intro word member
    obtain ⟨grant, inList, rfl⟩ := List.mem_map.mp member
    exact decide_eq_false fun zero => list.nonzero grant inList (signExtend_zero.mp zero)
  have rest : ∀ count, (List.replicate count (0 : BitVec 64)).findIdx (· = 0) = 0 := by
    intro count
    cases count <;> simp [List.replicate_succ, List.findIdx_cons]
  rw [list.words, List.findIdx_append, none, rest, List.length_map, if_neg (Nat.lt_irrefl _), Nat.zero_add]

theorem FdList.set (list : FdList sc listed) (room : listed.length < 8) (word : BitVec 64) :
    sc.fd.set listed.length word = (listed.map fun grant => (fdWord grant).signExtend 64) ++
      word :: List.replicate (8 - (listed.length + 1)) 0 := by
  have split : 8 - listed.length = 8 - (listed.length + 1) + 1 := by omega
  rw [list.words, List.set_append_right _ _ (by simp), List.length_map, Nat.sub_self, split,
    List.replicate_succ, List.set_cons_zero]

theorem scFdAdd_eq (list : FdList sc listed) : scFdAdd sc fd prot =
    if listed.length < 8 ∧ fd.toNat < 2 ^ 23 ∧ prot.toNat < 16 then
      some { sc with fd := sc.fd.set listed.length ((fdWord (fd, prot)).signExtend 64) }
    else none := by
  have fits := @fdWord_fits fd prot
  unfold scFdAdd
  simp only [list.firstFree]
  exact if_congr (and_congr_right fun _ => fits) rfl rfl

theorem FdList.add (list : FdList sc listed) (added : scFdAdd sc fd prot = some next) :
    FdList next (addGrant listed (fd, prot)) := by
  rw [scFdAdd_eq list] at added
  split at added
  · rename_i fits
    obtain ⟨room, smallFd, smallProt⟩ := fits
    obtain rfl := Option.some.inj added
    unfold addGrant
    by_cases blank : fdWord (fd, prot) = 0
    · rw [if_pos blank]
      refine ⟨?_, list.bound, list.small, list.nonzero⟩
      have split : 8 - listed.length = 8 - (listed.length + 1) + 1 := by omega
      rw [list.set room, blank, split, List.replicate_succ]
      rfl
    · rw [if_neg blank]
      refine ⟨?_, ?_, ?_, ?_⟩
      · rw [list.set room, List.map_append, List.length_append, List.append_assoc]
        rfl
      · rw [List.length_append]
        exact room
      · exact List.forall_mem_append.mpr ⟨list.small, by simpa using ⟨smallFd, smallProt⟩⟩
      · exact List.forall_mem_append.mpr ⟨list.nonzero, by simpa using blank⟩
  · exact absurd added (by simp)

theorem FdList.low (list : FdList sc listed) :
    (sc.fd.map fun word => word.setWidth 32).takeWhile (· ≠ 0) = listed.map fdWord := by
  have halves : (listed.map fun grant => (fdWord grant).signExtend 64).map (fun word => word.setWidth 32) =
      listed.map fdWord := by
    rw [List.map_map]
    exact List.map_congr_left fun grant _ => signExtend_low (fdWord grant)
  rw [list.words, List.map_append, halves, List.takeWhile_append_of_pos]
  · rw [List.map_replicate]
    cases 8 - listed.length <;> simp [List.replicate_succ]
  · intro word member
    obtain ⟨grant, inList, rfl⟩ := List.mem_map.mp member
    exact decide_eq_true (list.nonzero grant inList)

theorem FdList.search (list : FdList sc listed) (fd : BitVec 32) :
    (listed.find? fun grant => decide ((fdWord grant).sshiftRight 8 = fd)) =
      listed.find? fun grant => grant.1 = fd := by
  apply List.find?_congr
  intro grant member
  obtain ⟨smallFd, smallProt⟩ := list.small grant member
  rw [fdWord_number smallFd smallProt]

/-- The search of `has_fd_perm`, over the grants. -/
theorem FdList.hasFdPerm (list : FdList sc listed) (fd perm : BitVec 32) : hasFdPerm sc fd perm =
    (listed.find? fun grant => grant.1 = fd).any fun grant => decide (grant.2 &&& perm ≠ 0) := by
  have search : (listed.find? fun grant => decide ((fdWord grant).sshiftRight 8 = fd)) =
      listed.find? fun grant => grant.1 = fd := list.search fd
  rw [RdmaPaging.hasFdPerm, list.low, List.find?_map]
  simp only [Function.comp_def, search]
  cases found : listed.find? fun grant => grant.1 = fd with
  | none => rfl
  | some grant =>
      have small := (list.small grant (List.mem_of_find?_eq_some found)).2
      simp only [Option.map_some, Option.any_some]
      rw [fdWord_prot small]

end Words

/-! Runs. -/

/-- A system call, with what the host answers if it is `open`. -/
structure SthreadCall where
  tf : DuneTf
  pathLen : Nat
  rc : BitVec 32

/-- A call that the handler lets through. -/
structure PermittedCall (w : Wedge) (s : Sthread PageTable) (call : SthreadCall) : Prop where
  allowed : canDoSysAt call.tf.num s.cell = some true
  descriptor : ∀ perm, fdPermOf call.tf.num = some perm →
    hasFdPerm s.sc (call.tf.rdi.setWidth 32) perm = true
  buffer : ∀ ptr len, bufferOf call.tf.num call.tf call.pathLen = some (ptr, len) →
    s.walk ≠ 0 ∧ (hasMemPerm w s ptr len).1 = true

/-- The registers of a call with its pointer replaced. -/
def Sthread.rewritten (s : Sthread PageTable) (w : Wedge) (call : SthreadCall) : DuneTf :=
  match bufferOf call.tf.num call.tf call.pathLen with
  | some (ptr, len) => call.tf.setBuffer call.tf.num (bufferAddr w s ptr len)
  | none => call.tf

inductive FdEvent
  | granted (grant : FdGrant)
  | called (call : SthreadCall)

/-- An sthread, and the descriptors that are its own: those granted or opened and not closed. -/
structure FdRun where
  s : Sthread PageTable
  mem : HostMem
  rights : List FdGrant

def rightsAfter (call : SthreadCall) (rights : List FdGrant) : List FdGrant :=
  if call.tf.num = 2 ∧ call.rc.msb = false then (call.rc, protRead ||| protWrite) :: rights
  else if call.tf.num = 3 then rights.filter fun grant => grant.1 ≠ call.tf.rdi.setWidth 32
  else rights

/-- A grant of the master or a call of the sthread, or `none` where it ends the process. -/
@[grind =] def fdStep (w : Wedge) : Option FdRun → FdEvent → Option FdRun
  | none, _ => none
  | some run, .granted grant => (scFdAdd run.s.sc grant.1 grant.2).map fun sc =>
      { run with s := { run.s with sc := sc }, rights := grant :: run.rights }
  | some run, .called call =>
      match Sthread.syscallHandler w call.tf call.pathLen call.rc run.s run.mem with
      | (.died, _, _) => none
      | (_, s, mem) => some ⟨s, mem, rightsAfter call run.rights⟩

def HoldsRight (rights : List FdGrant) (fd perm : BitVec 32) : Prop :=
  ∃ grant ∈ rights, grant.1 = fd ∧ grant.2 &&& perm ≠ 0

/-- `has_fd_perm` answers for each of the four protection bits as the rights say. -/
def RightsExact (run : FdRun) : Prop :=
  ∀ fd bit, bit < 4 →
    (hasFdPerm run.s.sc fd (BitVec.twoPow 32 bit) = true ↔ HoldsRight run.rights fd (BitVec.twoPow 32 bit))

/-- The grants are accepted, and the calls are `open`, `read`, `write` and `close` and are permitted. -/
def FdEvent.Permitted (w : Wedge) (run : FdRun) : FdEvent → Prop
  | .granted grant => (scFdAdd run.s.sc grant.1 grant.2).isSome = true
  | .called call => (call.tf.num = 0 ∨ call.tf.num = 1 ∨ call.tf.num = 2 ∨ call.tf.num = 3) ∧
      PermittedCall w run.s call

/-- The word that the search for a descriptor stops at. -/
def Sc.fdEntry (sc : Sc) (fd : BitVec 32) : Option (BitVec 32) :=
  ((sc.fd.map fun word => word.setWidth 32).takeWhile (· ≠ 0)).find?
    fun word : BitVec 32 => word.sshiftRight 8 = fd

/-- Where the descriptor is listed already, its first word has all the bits of the new protection. -/
def FdCovered (sc : Sc) (grant : FdGrant) : Prop :=
  ∀ word, sc.fdEntry grant.1 = some word → grant.2 &&& word = grant.2

/-- No word of the array is searched in vain: nothing is closed, and what is opened finds room and
is not listed with less than both protections. -/
def FdEvent.Kept (run : FdRun) : FdEvent → Prop
  | .granted grant => FdCovered run.s.sc grant
  | .called call => call.tf.num ≠ 3 ∧ (call.tf.num = 2 → call.rc.msb = false →
      call.rc.toNat < 2 ^ 23 ∧ run.s.sc.fd.findIdx (· = 0) < 8 ∧
        FdCovered run.s.sc (call.rc, protRead ||| protWrite))

/-- The event does not end the process, and leaves the rights exact. -/
def FdEvent.Right (w : Wedge) (run : FdRun) (event : FdEvent) : Prop :=
  ∃ next, fdStep w (some run) event = some next ∧ RightsExact next

/-- Something holds of every event of a run, as long as the process lives. -/
def EachEvent (w : Wedge) (s : Sthread PageTable) (mem : HostMem) (holds : FdRun → FdEvent → Prop)
    (events : List FdEvent) : Prop :=
  Each (fdStep w) (some ⟨s, mem, []⟩)
    (fun state event => ∀ run, state = some run → holds run event) events

/-- What a run keeps whose events are all of the kept kind. -/
structure FdRun.Listed (run : FdRun) (listed : List FdGrant) : Prop where
  list : FdList run.s.sc listed
  owned : ∀ grant ∈ listed, grant ∈ run.rights
  small : ∀ grant ∈ run.rights, grant.2.toNat < 16
  first : ∀ grant ∈ run.rights, grant.2 ≠ 0 → ∃ first,
    listed.find? (fun other => other.1 = grant.1) = some first ∧ grant.2 &&& first.2 = grant.2

section Steps

variable {w : Wedge} {run : FdRun} {listed : List FdGrant} {grant : FdGrant} {call : SthreadCall}

theorem FdList.fdEntry {sc : Sc} (list : FdList sc listed) (fd : BitVec 32) :
    sc.fdEntry fd = (listed.find? fun grant => grant.1 = fd).map fdWord := by
  rw [Sc.fdEntry, list.low, List.find?_map]
  exact congrArg (Option.map fdWord) (list.search fd)

/-- The first listed grant decides. -/
theorem FdRun.Listed.exact_ (kept : run.Listed listed) : RightsExact run := by
  intro fd bit _
  rw [kept.list.hasFdPerm, Option.any_eq_true]
  constructor
  · rintro ⟨grant, found, bits⟩
    exact ⟨grant, kept.owned grant (List.mem_of_find?_eq_some found), by simpa using List.find?_some found,
      of_decide_eq_true bits⟩
  · rintro ⟨grant, member, rfl, bits⟩
    have some_ : grant.2 ≠ 0 := by
      intro none
      rw [none] at bits
      exact bits (BitVec.zero_and)
    obtain ⟨first, found, includes⟩ := kept.first grant member some_
    refine ⟨first, found, decide_eq_true fun none => bits ?_⟩
    rw [← includes, BitVec.and_assoc, none]
    exact BitVec.and_zero

theorem fdWord_includes {prot : BitVec 32} (small : prot.toNat < 16) {first : FdGrant}
    (smallFirst : first.2.toNat < 16) : prot &&& fdWord first = prot &&& first.2 := by
  have low : 0xf#32 &&& prot = prot := by
    apply BitVec.eq_of_toNat_eq
    rw [BitVec.and_comm, BitVec.toNat_and]
    exact (Nat.and_two_pow_sub_one_eq_mod prot.toNat 4).trans (Nat.mod_eq_of_lt small)
  calc prot &&& fdWord first = 0xf#32 &&& prot &&& fdWord first := by rw [low]
    _ = prot &&& (fdWord first &&& 0xf#32) := by
        rw [BitVec.and_comm (0xf#32), BitVec.and_assoc, BitVec.and_comm (0xf#32)]
    _ = prot &&& first.2 := by rw [fdWord_prot smallFirst]

theorem FdList.covered_iff {sc : Sc} (list : FdList sc listed) (small : grant.2.toNat < 16) :
    FdCovered sc grant ↔ ∀ first, (listed.find? fun other => other.1 = grant.1) = some first →
      grant.2 &&& first.2 = grant.2 := by
  have words : ∀ first, (listed.find? fun other => other.1 = grant.1) = some first →
      grant.2 &&& fdWord first = grant.2 &&& first.2 := fun first found =>
    fdWord_includes small (list.small first (List.mem_of_find?_eq_some found)).2
  rw [FdCovered, list.fdEntry]
  constructor
  · intro covered first found
    rw [← words first found]
    exact covered _ (by rw [found]; rfl)
  · intro includes word entry
    obtain ⟨first, found, rfl⟩ := Option.map_eq_some_iff.mp entry
    rw [words first found]
    exact includes first found

theorem find_addGrant {p : FdGrant → Bool} (notBlank : fdWord grant ≠ 0) :
    (addGrant listed grant).find? p = (listed.find? p).or (if p grant then some grant else none) := by
  rw [addGrant, if_neg notBlank, List.find?_append]
  congr 1
  cases holds : p grant <;> simp [holds]

theorem blank_prot (small : grant.2.toNat < 16) (blank : fdWord grant = 0) : grant.2 = 0 := by
  have value := @fdWord_toNat grant.1 grant.2 small
  apply BitVec.eq_of_toNat_eq
  change _ = 0
  have zero : (fdWord (grant.1, grant.2)).toNat = 0 := congrArg BitVec.toNat blank
  omega

section Adding

variable {sc : Sc} {next : FdRun} (kept : run.Listed listed)
  (added : scFdAdd run.s.sc grant.1 grant.2 = some sc) (sameSc : next.s.sc = sc)
  (sameRights : next.rights = grant :: run.rights)

include kept added

theorem added_small : grant.2.toNat < 16 := by
  rw [scFdAdd_eq kept.list] at added
  split at added
  · rename_i fits
    exact fits.2.2
  · exact absurd added (by simp)

include sameSc sameRights

/-- A covered grant keeps the first listed one of its descriptor in charge. -/
theorem FdRun.Listed.add (covered : FdCovered run.s.sc grant) : next.Listed (addGrant listed grant) := by
  have small := added_small kept added
  rw [kept.list.covered_iff small] at covered
  refine ⟨sameSc ▸ kept.list.add added, ?_, ?_, ?_⟩
  · rw [sameRights]
    intro other member
    unfold addGrant at member
    split at member
    · exact List.mem_cons_of_mem _ (kept.owned other member)
    · rcases List.mem_append.mp member with old | new
      · exact List.mem_cons_of_mem _ (kept.owned other old)
      · exact List.mem_cons.mpr (Or.inl (List.mem_singleton.mp new))
  · rw [sameRights]
    exact List.forall_mem_cons.mpr ⟨small, kept.small⟩
  · rw [sameRights]
    by_cases blank : fdWord grant = 0
    · rw [addGrant, if_pos blank]
      exact List.forall_mem_cons.mpr ⟨fun some_ => absurd (blank_prot small blank) some_, kept.first⟩
    · refine List.forall_mem_cons.mpr ⟨fun _ => ?_, fun other member some_ => ?_⟩
      · rw [find_addGrant blank]
        cases found : listed.find? fun other => other.1 = grant.1 with
        | some first => exact ⟨first, rfl, covered first found⟩
        | none => exact ⟨grant, by simp, BitVec.and_self⟩
      · obtain ⟨first, found, includes⟩ := kept.first other member some_
        exact ⟨first, by rw [find_addGrant blank, found, Option.some_or], includes⟩

/-- Rights are exact after a grant only if it is covered. -/
theorem FdRun.Listed.covered (exact_ : RightsExact next) : FdCovered run.s.sc grant := by
  have small := added_small kept added
  have list : FdList next.s.sc (addGrant listed grant) := sameSc ▸ kept.list.add added
  rw [kept.list.covered_iff small]
  intro first found
  by_cases blank : fdWord grant = 0
  · rw [blank_prot small blank]
    exact BitVec.zero_and
  · apply BitVec.eq_of_getLsbD_eq
    intro bit inWord
    rw [BitVec.getLsbD_and]
    cases set : grant.2.getLsbD bit with
    | false => rfl
    | true =>
        have low : bit < 4 := by
          by_contra high
          rw [BitVec.getLsbD, Nat.testBit_lt_two_pow (Nat.lt_of_lt_of_le small
            (Nat.pow_le_pow_right (show 0 < 2 by decide) (show 4 ≤ bit by omega)))] at set
          exact absurd set (by simp)
        have holds : HoldsRight next.rights grant.1 (BitVec.twoPow 32 bit) :=
          ⟨grant, by rw [sameRights]; exact List.mem_cons_self, rfl, (bit_test _ inWord).mpr set⟩
        have answer := (exact_ grant.1 bit low).mpr holds
        rw [list.hasFdPerm, find_addGrant blank, found, Option.some_or, Option.any_some, decide_eq_true_eq,
          bit_test _ inWord] at answer
        rw [answer]
        rfl

end Adding

/-! Calls. -/

theorem setBuffer_num (tf : DuneTf) (num : Int) (addr : Nat) : (tf.setBuffer num addr).num = tf.num := by
  unfold DuneTf.setBuffer
  split <;> rfl

theorem rewritten_num (s : Sthread PageTable) (w : Wedge) (call : SthreadCall) :
    (s.rewritten w call).num = call.tf.num := by
  unfold Sthread.rewritten
  split
  · exact setBuffer_num _ _ _
  · rfl

/-- A call that is let through comes to its special treatment, with `st_walk` as the check left it. -/
theorem syscallHandler_rewritten {s : Sthread PageTable} (permitted : PermittedCall w s call)
    (mem : HostMem) : ∃ walk, Sthread.syscallHandler w call.tf call.pathLen call.rc s mem =
      specialTreatment w (s.rewritten w call) call.rc { s with walk := walk } mem := by
  have descriptor : (fdPermOf call.tf.num).all
      (fun perm => hasFdPerm s.sc (call.tf.rdi.setWidth 32) perm) = true := by
    rw [Option.all_eq_true]
    exact permitted.descriptor
  rw [Sthread.syscallHandler, permitted.allowed, Sthread.rewritten]
  simp only [descriptor, if_true]
  cases buffer : bufferOf call.tf.num call.tf call.pathLen with
  | none => exact ⟨s.walk, rfl⟩
  | some range =>
      obtain ⟨ptr, len⟩ := range
      obtain ⟨live, accessible⟩ := permitted.buffer ptr len buffer
      simp only [if_neg live, if_pos accessible]
      exact ⟨_, rfl⟩

theorem syscallHandler_permitted (permitted : PermittedCall w run.s call) (mem : HostMem) :
    ∃ (tf : DuneTf) (walk : Nat), tf.num = call.tf.num ∧
      Sthread.syscallHandler w call.tf call.pathLen call.rc run.s mem =
        specialTreatment w tf call.rc { run.s with walk := walk } mem := by
  obtain ⟨walk, handled⟩ := syscallHandler_rewritten permitted mem
  exact ⟨_, walk, rewritten_num run.s w call, handled⟩

/-- `open` of a new descriptor adds it, and ends the process where there is no room. -/
theorem fdStep_opens (permitted : PermittedCall w run.s call) (isOpen : call.tf.num = 2)
    (success : call.rc.msb = false) : ∃ walk, fdStep w (some run) (.called call) =
      (scFdAdd run.s.sc call.rc (protRead ||| protWrite)).map fun sc =>
        ⟨{ run.s with walk := walk, sc := sc }, run.mem,
          (call.rc, protRead ||| protWrite) :: run.rights⟩ := by
  obtain ⟨tf, walk, number, handled⟩ := syscallHandler_permitted permitted run.mem
  refine ⟨walk, ?_⟩
  rw [isOpen] at number
  have after : rightsAfter call run.rights = (call.rc, protRead ||| protWrite) :: run.rights :=
    if_pos ⟨isOpen, success⟩
  rw [fdStep, handled, specialTreatment, number, after]
  simp only [success]
  cases scFdAdd run.s.sc call.rc (protRead ||| protWrite) <;> rfl

/-- The other calls leave the context as it is. -/
theorem fdStep_keeps (permitted : PermittedCall w run.s call)
    (known : call.tf.num = 0 ∨ call.tf.num = 1 ∨ call.tf.num = 2 ∨ call.tf.num = 3)
    (noNew : ¬ (call.tf.num = 2 ∧ call.rc.msb = false)) : ∃ walk, fdStep w (some run) (.called call) =
      some ⟨{ run.s with walk := walk }, run.mem, rightsAfter call run.rights⟩ := by
  obtain ⟨tf, walk, number, handled⟩ := syscallHandler_permitted permitted run.mem
  refine ⟨walk, ?_⟩
  rw [fdStep, handled, specialTreatment, number]
  rcases known with isRead | isWrite | isOpen | isClose
  · rw [isRead]
    rfl
  · rw [isWrite]
    rfl
  · have failed : call.rc.msb = true := by
      by_contra success
      exact noNew ⟨isOpen, by simpa using success⟩
    rw [isOpen, failed]
    rfl
  · rw [isClose]
    rfl

theorem twoPow_write : protWrite = BitVec.twoPow 32 1 := by decide

/-- A right that is closed stays in the array. -/
theorem close_inexact (permitted : PermittedCall w run.s call) (isClose : call.tf.num = 3) {next : FdRun}
    (sameSc : next.s.sc = run.s.sc) (closed : next.rights = rightsAfter call run.rights) :
    ¬ RightsExact next := by
  intro exact_
  have held := permitted.descriptor protWrite (by rw [isClose]; rfl)
  rw [← sameSc, twoPow_write, exact_ _ 1 (by decide), closed] at held
  have after : rightsAfter call run.rights =
      run.rights.filter fun grant => grant.1 ≠ call.tf.rdi.setWidth 32 := by
    rw [rightsAfter, isClose]
    rfl
  obtain ⟨grant, member, isFd, _⟩ := held
  rw [after] at member
  exact absurd isFd (of_decide_eq_true (List.mem_filter.mp member).2)

/-- An event of the kept kind. -/
theorem FdRun.Listed.step (kept : run.Listed listed) {event : FdEvent} (permitted : event.Permitted w run)
    (keeps : event.Kept run) :
    ∃ next listed, fdStep w (some run) event = some next ∧ FdRun.Listed next listed := by
  cases event with
  | granted grant =>
      obtain ⟨sc, added⟩ := Option.isSome_iff_exists.mp permitted
      have stepped : fdStep w (some run) (.granted grant) =
          some { run with s := { run.s with sc := sc }, rights := grant :: run.rights } := by
        rw [fdStep, added]
        rfl
      exact ⟨_, _, stepped, kept.add added rfl rfl keeps⟩
  | called call =>
      obtain ⟨known, permitted⟩ := permitted
      obtain ⟨notClose, fits⟩ := keeps
      by_cases opens : call.tf.num = 2 ∧ call.rc.msb = false
      · obtain ⟨walk, stepped⟩ := fdStep_opens permitted opens.1 opens.2
        obtain ⟨smallFd, room, covered⟩ := fits opens.1 opens.2
        rw [kept.list.firstFree] at room
        have added := @scFdAdd_eq call.rc (protRead ||| protWrite) _ _ kept.list
        rw [if_pos ⟨room, smallFd, by decide⟩] at added
        rw [added] at stepped
        exact ⟨_, _, stepped, @FdRun.Listed.add run listed (call.rc, protRead ||| protWrite) _ _ kept
          added rfl rfl covered⟩
      · obtain ⟨walk, stepped⟩ := fdStep_keeps permitted known opens
        have same : rightsAfter call run.rights = run.rights := by
          rw [rightsAfter, if_neg opens, if_neg notClose]
        rw [same] at stepped
        exact ⟨_, listed, stepped, kept.list, kept.owned, kept.small, kept.first⟩

/-- One event of a run. -/
theorem FdRun.Listed.right_iff (kept : run.Listed listed) {event : FdEvent}
    (permitted : event.Permitted w run) : event.Right w run ↔ event.Kept run := by
  constructor
  · rintro ⟨next, stepped, exact_⟩
    cases event with
    | granted grant =>
        obtain ⟨sc, added, rfl⟩ := Option.map_eq_some_iff.mp stepped
        exact kept.covered added rfl rfl exact_
    | called call =>
        obtain ⟨known, permitted⟩ := permitted
        by_cases opens : call.tf.num = 2 ∧ call.rc.msb = false
        · obtain ⟨walk, opened⟩ := fdStep_opens permitted opens.1 opens.2
          rw [opened] at stepped
          obtain ⟨sc, added, rfl⟩ := Option.map_eq_some_iff.mp stepped
          have covered := @FdRun.Listed.covered run listed (call.rc, protRead ||| protWrite) _ _ kept
            added rfl rfl exact_
          rw [scFdAdd_eq kept.list] at added
          split at added
          · rename_i fits
            refine ⟨by rw [opens.1]; decide, fun _ _ => ⟨fits.2.1, ?_, covered⟩⟩
            rw [kept.list.firstFree]
            exact fits.1
          · exact absurd added (by simp)
        · obtain ⟨walk, stays⟩ := fdStep_keeps permitted known opens
          rw [stays] at stepped
          obtain rfl := Option.some.inj stepped
          refine ⟨fun isClose => ?_, fun isOpen success => absurd ⟨isOpen, success⟩ opens⟩
          exact absurd exact_ (close_inexact permitted isClose rfl rfl)
  · intro keeps
    obtain ⟨next, _, stepped, listed⟩ := kept.step permitted keeps
    exact ⟨next, stepped, listed.exact_⟩

end Steps

/-- The process lives, and its sthread has a list of grants. -/
def FdAlive (state : Option FdRun) : Prop := ∃ run listed, state = some run ∧ FdRun.Listed run listed

/-- Over a run of grants and permitted calls the rights stay exact, and no call ends the process,
exactly if every event is of the kept kind. -/
theorem fd_rights_iff (w : Wedge) (s : Sthread PageTable) (mem : HostMem)
    (blank : s.sc.fd = List.replicate 8 0) (events : List FdEvent)
    (permitted : EachEvent w s mem (fun run event => event.Permitted w run) events) :
    EachEvent w s mem (fun run event => event.Right w run) events ↔
      EachEvent w s mem (fun run event => event.Kept run) events := by
  have begins : FdAlive (some ⟨s, mem, []⟩) :=
    ⟨_, [], rfl, ⟨blank, by simp, by simp, by simp⟩, by simp, by simp, by simp⟩
  refine each_iff begins ?_ ?_ permitted
  · rintro _ event ⟨run, listed, rfl, kept⟩ permitted keeps
    obtain ⟨next, nextListed, stepped, nextKept⟩ := kept.step (permitted run rfl) (keeps run rfl)
    exact ⟨next, nextListed, stepped, nextKept⟩
  · rintro _ event ⟨run, listed, rfl, kept⟩ permitted
    simp only [Option.some.injEq, forall_eq']
    exact kept.right_iff (permitted run rfl)

/-- An sthread that may call `open` and `close`. -/
def openingSthread : Sthread PageTable :=
  { bareSthread with sc := { scInit with sys := 0x0c#8 :: List.replicate 15 0 }, walk := 4096 }

def blankMem : HostMem := fun _ => 0

/-- The sthread after a grant of the descriptor 5 for reading and writing. -/
def grantedRun : FdRun where
  s := { openingSthread with sc := { openingSthread.sc with fd := 0x503#64 :: List.replicate 7 0 } }
  mem := blankMem
  rights := [(5, 3)]

theorem grantedRun_reached :
    after (fdStep bareWedge) (some ⟨openingSthread, blankMem, []⟩) [.granted (5, 3)] =
      some grantedRun := rfl

/-- Closes the descriptor 5. -/
def closeFive : SthreadCall := ⟨⟨3, 5, 0, 0, 0, 0⟩, 0, 0⟩

theorem closeFive_permitted : PermittedCall bareWedge grantedRun.s closeFive := by
  have noBuffer : bufferOf closeFive.tf.num closeFive.tf closeFive.pathLen = none := rfl
  refine ⟨by decide, ?_, ?_⟩
  · rintro perm same
    obtain rfl : protWrite = perm := Option.some.inj same
    decide
  · rintro ptr len buffer
    rw [noBuffer] at buffer
    exact absurd buffer (by simp)

/-- Opens a file as the descriptor 6. -/
def openSix : SthreadCall := ⟨⟨2, 0, 0, 0, 0, 0⟩, 0, 6⟩

theorem openSix_permitted : PermittedCall bareWedge grantedRun.s openSix := by
  have noPerm : fdPermOf openSix.tf.num = none := rfl
  have buffer : bufferOf openSix.tf.num openSix.tf openSix.pathLen = some (0, 0) := rfl
  refine ⟨by decide, ?_, ?_⟩
  · rintro perm same
    rw [noPerm] at same
    exact absurd same (by simp)
  · rintro ptr len same
    rw [buffer] at same
    obtain ⟨rfl, rfl⟩ := Prod.ext_iff.mp (Option.some.inj same)
    decide

theorem eachEvent_granted {holds : FdRun → FdEvent → Prop} {call : SthreadCall} :
    EachEvent bareWedge openingSthread blankMem holds ([.granted (5, 3)] ++ [.called call]) ↔
      holds ⟨openingSthread, blankMem, []⟩ (.granted (5, 3)) ∧ holds grantedRun (.called call) := by
  have first : Each (fdStep bareWedge) (some ⟨openingSthread, blankMem, []⟩)
      (fun state event => ∀ run, state = some run → holds run event) ([] ++ [.granted (5, 3)]) ↔
      holds ⟨openingSthread, blankMem, []⟩ (.granted (5, 3)) := by
    rw [each_snoc]
    simp only [each_nil, true_and, after, List.foldl_nil, Option.some.injEq, forall_eq']
  rw [EachEvent, each_snoc, grantedRun_reached, ← first]
  simp only [List.nil_append, Option.some.injEq, forall_eq']

theorem closed_right_stays :
    EachEvent bareWedge openingSthread blankMem (fun run event => event.Permitted bareWedge run)
      ([.granted (5, 3)] ++ [.called closeFive]) ∧
    ¬ EachEvent bareWedge openingSthread blankMem (fun run event => event.Right bareWedge run)
      ([.granted (5, 3)] ++ [.called closeFive]) := by
  rw [eachEvent_granted, eachEvent_granted]
  refine ⟨⟨rfl, by decide, closeFive_permitted⟩, ?_⟩
  rintro ⟨_, next, stepped, exact_⟩
  have closed : next = { grantedRun with rights := [] } := (Option.some.inj stepped).symm
  rw [closed] at exact_
  obtain ⟨grant, member, _⟩ := (exact_ 5 1 (by decide)).mp (by decide)
  simp at member

theorem fd_rights_opened :
    EachEvent bareWedge openingSthread blankMem (fun run event => event.Right bareWedge run)
      ([.granted (5, 3)] ++ [.called openSix]) := by
  refine (fd_rights_iff bareWedge openingSthread blankMem rfl _ ?_).mpr ?_
  · rw [eachEvent_granted]
    exact ⟨rfl, by decide, openSix_permitted⟩
  · have unlisted : openingSthread.sc.fdEntry 5 = none ∧ grantedRun.s.sc.fdEntry 6 = none := by decide
    rw [eachEvent_granted]
    refine ⟨?_, by decide, fun _ _ => ⟨by decide, by decide, ?_⟩⟩
    · intro word listed
      exact absurd (unlisted.1.symm.trans listed) (by simp)
    · intro word listed
      exact absurd (unlisted.2.symm.trans listed) (by simp)

end RdmaPaging
