import RdmaPaging.ClientDataPath
import RdmaPaging.PagerMain
import RdmaPaging.PagerMemory

/-!
What runs of the pager keep, and its page-out. The writes that are posted hold the pages as they
were, and once all are posted the region is unmapped. From then on a page is unmapped, or entered by
the handler that holds the lock, or in; a page that is in holds the bytes that were paged out, under
the stores since.
-/

namespace RdmaPaging

open RadixTree

/-! The calls of the client, by what they do to the threads and to the posted writes. -/

section Calls

variable {size : Nat} {client next : Client size} {tid offset : Nat} {bytes : Buf size}

theorem writeWait_step (stepped : step client (.writeWait tid offset) = some next) :
    client.threads tid = .idle ∧ next.threads = Function.update client.threads tid (.writeCopy offset) ∧
      next.posted = client.posted := by
  simp only [step, Action.party, stepApi] at stepped
  split at stepped
  · rename_i wasIdle
    rw [Option.ite_none_right_eq_some] at stepped
    obtain ⟨_, rfl⟩ := stepped.imp_right Option.some.inj
    exact ⟨wasIdle, rfl, rfl⟩
  · simp at stepped

theorem writeCopy_step (stepped : step client (.writeCopy tid bytes) = some next) :
    ∃ offset, client.threads tid = .writeCopy offset ∧
      next.threads = Function.update client.threads tid (.writePost offset bytes) ∧
      next.posted = client.posted := by
  simp only [step, Action.party, stepApi] at stepped
  split at stepped
  · rename_i offset inCall
    rw [Option.ite_none_right_eq_some] at stepped
    obtain ⟨_, rfl⟩ := stepped.imp_right Option.some.inj
    exact ⟨offset, inCall, rfl, rfl⟩
  · simp at stepped

theorem writePost_step (stepped : step client (.writePost tid) = some next) :
    ∃ offset bytes, client.threads tid = .writePost offset bytes ∧
      next.threads = Function.update client.threads tid .idle ∧
      next.posted = client.posted ++ [(offset, bytes)] := by
  simp only [step, Action.party, stepApi] at stepped
  split at stepped
  · rename_i offset bytes inCall
    rw [Option.ite_none_right_eq_some] at stepped
    obtain ⟨_, rfl⟩ := stepped.imp_right Option.some.inj
    exact ⟨offset, bytes, inCall, rfl, rfl⟩
  · simp at stepped

theorem readPost_step (stepped : step client (.readPost tid offset) = some next) :
    client.threads tid = .idle ∧
      next.threads = Function.update client.threads tid
        (.readWait offset client.posted.length client.readsPosted) ∧
      next.posted = client.posted := by
  simp only [step, Action.party, stepApi] at stepped
  split at stepped
  · rename_i wasIdle
    rw [Option.ite_none_right_eq_some] at stepped
    obtain ⟨_, rfl⟩ := stepped.imp_right Option.some.inj
    exact ⟨wasIdle, rfl, rfl⟩
  · simp at stepped

theorem readWait_step (stepped : step client (.readWait tid) = some next) :
    ∃ offset before ticket, client.threads tid = .readWait offset before ticket ∧
      next.threads = Function.update client.threads tid (.readCopy offset before ticket) ∧
      next.posted = client.posted := by
  simp only [step, Action.party, stepApi] at stepped
  split at stepped
  · rename_i offset before ticket inCall
    rw [Option.ite_none_right_eq_some] at stepped
    obtain ⟨_, rfl⟩ := stepped.imp_right Option.some.inj
    exact ⟨offset, before, ticket, inCall, rfl, rfl⟩
  · simp at stepped

theorem readCopy_step (stepped : step client (.readCopy tid) = some next) :
    ∃ offset before ticket, client.threads tid = .readCopy offset before ticket ∧
      next.threads = Function.update client.threads tid .idle ∧ next.posted = client.posted := by
  simp only [step, Action.party, stepApi] at stepped
  split at stepped
  · rename_i offset before ticket inCall
    rw [Option.ite_none_right_eq_some] at stepped
    obtain ⟨_, rfl⟩ := stepped.imp_right Option.some.inj
    exact ⟨offset, before, ticket, inCall, rfl, rfl⟩
  · simp at stepped

/-- The poller and the NIC leave the calls and the record of the writes alone. -/
theorem background_step {client next : Client pageSize} {action : Action pageSize}
    (isBackground : action.isBackground = true) (stepped : step client action = some next) :
    next.threads = client.threads ∧ next.posted = client.posted := by
  cases action with
  | pollCq =>
      simp only [step, Action.party, stepPoller] at stepped
      split at stepped
      · obtain rfl := Option.some.inj stepped
        exact ⟨rfl, rfl⟩
      · simp at stepped
  | handleWc =>
      simp only [step, Action.party, stepPoller] at stepped
      split at stepped
      · split at stepped
        · obtain rfl := Option.some.inj stepped
          exact ⟨rfl, rfl⟩
        · split at stepped
          · rename_i done completed
            obtain rfl := Option.some.inj stepped
            exact ⟨(onCompletion_same completed).threads, (onCompletion_same completed).posted⟩
          · simp at stepped
      · simp at stepped
  | nicFetch index =>
      simp only [step, Action.party, stepNic] at stepped
      rw [Option.ite_none_left_eq_some] at stepped
      obtain ⟨_, rfl⟩ := stepped.imp_right Option.some.inj
      exact ⟨rfl, rfl⟩
  | nicExec =>
      simp only [step, Action.party, stepNic] at stepped
      rw [Option.ite_none_left_eq_some] at stepped
      obtain ⟨_, stepped⟩ := stepped
      split at stepped
      · simp at stepped
      · obtain rfl := Option.some.inj stepped
        unfold executeHead
        split
        · exact ⟨rfl, rfl⟩
        · split <;> exact ⟨rfl, rfl⟩
        · split <;> exact ⟨rfl, rfl⟩
  | nicComplete =>
      simp only [step, Action.party, stepNic] at stepped
      rw [Option.ite_none_left_eq_some] at stepped
      obtain ⟨_, stepped⟩ := stepped
      split at stepped
      · simp at stepped
      · obtain rfl := Option.some.inj stepped
        exact ⟨rfl, rfl⟩
  | _ => simp [Action.isBackground] at isBackground

theorem background_guard {client : Client pageSize} {action : Action pageSize}
    (isBackground : action.isBackground = true) : dataGuard client action := by
  cases action with
  | pollCq | handleWc | nicFetch _ | nicExec | nicComplete => exact trivial
  | _ => simp [Action.isBackground] at isBackground

end Calls

/-! The server's memory. -/

/-- Writes of whole blocks one after the other: each block reads back. -/
theorem remoteAfter_blocks {size : Nat} (base : Nat) (memory : Nat → UInt8) (block : Nat → Buf size)
    {count page : Nat} (inside : page < count) :
    bytesAt (remoteAfter base memory ((List.range count).map fun page => (page * size, block page)))
      (base + page * size) = block page := by
  induction count with
  | zero => omega
  | succ count ih =>
      rw [List.range_succ, List.map_append, List.map_singleton, remoteAfter_append]
      funext index
      have bound := index.isLt
      rcases Nat.lt_succ_iff_lt_or_eq.mp inside with earlier | rfl
      · have order := Nat.mul_le_mul_right size (show page + 1 ≤ count from earlier)
        rw [Nat.add_mul, Nat.one_mul] at order
        have apart : ¬ (base + count * size ≤ base + page * size + index ∧
            base + page * size + index - (base + count * size) < size) := by omega
        rw [← congrFun (ih earlier) index]
        simp only [bytesAt, place, apart, dif_neg, not_false_eq_true]
      · have here : base + page * size ≤ base + page * size + index ∧
            base + page * size + index - (base + page * size) < size := by omega
        simp only [bytesAt, place]
        rw [dif_pos here]
        exact congrArg (block page) (Fin.ext (Nat.add_sub_cancel_left _ _))

/-! What a run keeps. -/

/-- What a byte of the region should be: the latest store to it, or the byte that was paged out. -/
def contents (config : PagerConfig) (start : Pager) (stores : List (Nat × UInt8)) (offset : Nat) :
    Option UInt8 :=
  (stores.lookup offset).or (loadByte config start (config.page + offset))

/-- The frame of a page before page-out. -/
def firstFrame (config : PagerConfig) (start : Pager) (page : Nat) : Option PhysAddr :=
  frameAt config start.vm (pageAt config page)

def savedPage (config : PagerConfig) (start : Pager) (page : Nat) : Buf pageSize :=
  start.frames ((firstFrame config start page).getD 0#64)

/-- The first `count` writes of page-out. -/
def savedWrites (config : PagerConfig) (start : Pager) (count : Nat) : List (Nat × Buf pageSize) :=
  (List.range count).map fun page => (page * pageSize, savedPage config start page)

/-- `main` has come to a page of the page-out loop. -/
structure PagingOut (config : PagerConfig) (start state : Pager) (index : Nat) : Prop where
  bound : index ≤ config.pageNr
  vm : state.vm = start.vm
  frames : ∀ page < config.pageNr, ∀ frame, firstFrame config start page = some frame →
    state.frames frame = start.frames frame
  faults : ∀ tid, state.faults tid = .none
  unlocked : state.syscallMtx = none
  handled : state.handled = []
  stores : state.stores = []
  loads : state.loads = []
  posted : state.client.posted = savedWrites config start index
  mapped : ∀ page < index, (firstFrame config start page).isSome = true
  others : ∀ tid, tid ≠ mainThread → state.client.threads tid = .idle
  main : state.client.threads mainThread = .idle ∨ index < config.pageNr ∧
    (state.client.threads mainThread = .writeCopy (index * pageSize) ∨
      state.client.threads mainThread = .writePost (index * pageSize) (savedPage config start index) ∧
        (firstFrame config start index).isSome = true)

/-- No store to the page has been made. -/
def Untouched (stores : List (Nat × UInt8)) (page : Nat) : Prop :=
  ∀ index : Fin pageSize, stores.lookup (page * pageSize + index) = none

/-- The page is mapped and holds what it should. -/
structure PagedIn (config : PagerConfig) (start state : Pager) (page : Nat) : Prop where
  mapped : frameAt config state.vm (pageAt config page) = some (ownFrame config page)
  bytes : ∀ index : Fin pageSize, some (state.frames (ownFrame config page) index) =
    contents config start state.stores (page * pageSize + index)

/-- The page is mapped and not yet filled. -/
structure Entering (config : PagerConfig) (state : Pager) (page : Nat) : Prop where
  mapped : frameAt config state.vm (pageAt config page) = some (ownFrame config page)
  untouched : Untouched state.stores page

/-- A page after page-out. -/
def PageState (config : PagerConfig) (start state : Pager) (page : Nat) : Prop :=
  BlankPage config state.vm page ∧ Untouched state.stores page ∨
    (∃ tid, state.faults tid = .installed (pageAt config page)) ∨ PagedIn config start state page

/-- A thread in a read is a handler that has mapped its page. -/
def ReadCall (config : PagerConfig) (state : Pager) (tid : Nat) : Prop :=
  state.client.threads tid = .idle ∨ ∃ page < config.pageNr,
    state.faults tid = .installed (pageAt config page) ∧ ∃ ticket,
      state.client.threads tid = .readWait (page * pageSize) config.pageNr ticket ∨
        state.client.threads tid = .readCopy (page * pageSize) config.pageNr ticket

/-- The region is unmapped. -/
structure PagingIn (config : PagerConfig) (start state : Pager) : Prop where
  built : 0 < config.pageNr → Grounded entryBuilt [treeOf config.pgroot] state.vm
  posted : state.client.posted = savedWrites config start config.pageNr
  mapped : ∀ page < config.pageNr, (firstFrame config start page).isSome = true
  lock : ∀ tid, (state.faults tid).holdsLock = true → state.syscallMtx = some tid
  places : ∀ tid addr, (state.faults tid).addr? = some addr →
    ∃ page < config.pageNr, addr = pageAt config page
  calls : ∀ tid, ReadCall config state tid
  pages : ∀ page < config.pageNr, PageState config start state page
  entered : ∀ tid, ∀ page < config.pageNr, state.faults tid = .installed (pageAt config page) →
    Entering config state page
  copied : ∀ tid, ∀ page < config.pageNr, state.faults tid = .copied (pageAt config page) →
    PagedIn config start state page
  handled : ∀ page ∈ state.handled, page < config.pageNr ∧ PagedIn config start state page
  loads : ∀ load ∈ state.loads, some load.value = contents config start load.earlier load.offset

def PagerInv (config : PagerConfig) (start state : Pager) : Prop :=
  match state.next with
  | some index => PagingOut config start state index
  | none => PagingIn config start state

/-- `main` is about to page out. The server's region takes the pages, whose length fits an `int`,
and what is mapped there is not of libdune's pool. -/
structure PagerStarts (config : PagerConfig) (start : Pager) : Prop where
  client : Ready start.client
  small : config.pageNr < 2 ^ 19
  served : pageLen config ≤ start.client.serverMr.length
  built : Grounded entryBuilt [treeOf config.pgroot] start.vm
  inWindow : start.vm.pool.numPages ≤ maxPages
  foreign : Foreign config.pgroot config.page (pageLen config) start.vm
  next : start.next = some 0
  faults : ∀ tid, start.faults tid = .none
  unlocked : start.syscallMtx = none
  history : start.handled = [] ∧ start.stores = [] ∧ start.loads = []

/-- The faults are at first bytes of pages, a handler maps only a page that is not mapped while the
pool keeps to its table, and no thread touches a page between its mapping and its copy. -/
def touchGuard (config : PagerConfig) (state : Pager) : PagerAction → Prop
  | .fault _ addr => addr % pageSize = 0
  | .install tid => ∀ addr, state.faults tid = .locked addr → frameAt config state.vm addr = none ∧
      (vmLookup config.pgroot addr .normal state.vm).2.pool.numPages ≤ maxPages
  | .load _ addr | .store _ addr _ => ∀ tid other, state.faults tid = .installed other →
      other / pageSize ≠ addr / pageSize
  | _ => True

variable {physBits : Nat} {mm : MmStruct} {config : PagerConfig} {start state next : Pager}
variable {index page other tid addr : Nat}

theorem onClient_some {action : Action pageSize} (ran : state.onClient action = some next) :
    ∃ client, step state.client action = some client ∧ next = { state with client := client } := by
  simp only [Pager.onClient, Option.map_eq_some_iff] at ran
  obtain ⟨client, stepped, rfl⟩ := ran
  exact ⟨client, stepped, rfl⟩

theorem PagerStarts.inv (starts : PagerStarts config start) : PagerInv config start start := by
  have threads := starts.client.threads
  rw [PagerInv, starts.next]
  refine ⟨Nat.zero_le _, rfl, fun _ _ _ _ => rfl, starts.faults, starts.unlocked, starts.history.1,
    starts.history.2.1, starts.history.2.2, starts.client.posted, ?_, fun tid _ => threads tid,
    Or.inl (threads mainThread)⟩
  intro page early
  exact absurd early (Nat.not_lt_zero _)

theorem PagerStarts.pageBytes_page (starts : PagerStarts config start) (bound : index ≤ config.pageNr) :
    pageBytes index = index * pageSize := by
  rw [pageBytes_small (Nat.lt_of_le_of_lt bound starts.small), Nat.mul_comm]
  rfl

/-! Page-out. -/

section Out

variable (inv : PagingOut config start state index)

include inv

/-- A step of the client that leaves the record of the writes alone. -/
theorem PagingOut.onClient {client : Client pageSize} (posted : client.posted = state.client.posted)
    (others : ∀ tid, tid ≠ mainThread → client.threads tid = .idle)
    (main : client.threads mainThread = .idle ∨ index < config.pageNr ∧
      (client.threads mainThread = .writeCopy (index * pageSize) ∨
        client.threads mainThread = .writePost (index * pageSize) (savedPage config start index) ∧
          (firstFrame config start index).isSome = true)) :
    PagingOut config start { state with client := client } index :=
  { inv with posted := posted.trans inv.posted, others := others, main := main }

theorem PagingOut.writeWait (starts : PagerStarts config start)
    (stepped : stepMain config state index .writeWait = some next) : PagingOut config start next index := by
  simp only [stepMain, Option.ite_none_right_eq_some] at stepped
  obtain ⟨bound, ran⟩ := stepped
  obtain ⟨client, stepped, rfl⟩ := onClient_some ran
  obtain ⟨_, threads, posted⟩ := writeWait_step stepped
  refine inv.onClient posted (fun tid other => ?_) (Or.inr ⟨bound, Or.inl ?_⟩)
  · rw [threads, Function.update_of_ne other, inv.others tid other]
  · rw [threads, Function.update_self, starts.pageBytes_page inv.bound]

/-- The bytes that are copied are those that the page had at the start. -/
theorem PagingOut.writeCopy (backed : Backed physBits mm config) (starts : PagerStarts config start)
    (stepped : stepMain config state index .writeCopy = some next) : PagingOut config start next index := by
  simp only [stepMain, Option.bind_eq_some_iff] at stepped
  obtain ⟨bytes, copied, ran⟩ := stepped
  obtain ⟨client, stepped, rfl⟩ := onClient_some ran
  obtain ⟨offset, inCall, threads, posted⟩ := writeCopy_step stepped
  rcases inv.main with idle | ⟨bound, waiting⟩
  · simp [idle] at inCall
  · have isOffset : offset = index * pageSize := by
      rcases waiting with waiting | ⟨waiting, _⟩ <;> simp_all
    rw [starts.pageBytes_page inv.bound] at copied
    have read : loadBytes config state (pageAt config index) =
        (frameAt config state.vm (pageAt config index)).map state.frames := backed.loadBytes_page bound
    rw [pageAt, copied, inv.vm] at read
    obtain ⟨frame, maps, isFrame⟩ := Option.map_eq_some_iff.mp read.symm
    have saved : bytes = savedPage config start index := by
      rw [savedPage, show firstFrame config start index = some frame from maps, Option.getD_some, ← isFrame]
      exact inv.frames index bound frame maps
    refine inv.onClient posted (fun tid other => ?_) (Or.inr ⟨bound, Or.inr ⟨?_, ?_⟩⟩)
    · rw [threads, Function.update_of_ne other, inv.others tid other]
    · rw [threads, Function.update_self, isOffset, saved]
    · rw [show firstFrame config start index = some frame from maps, Option.isSome_some]

theorem PagingOut.writePost (stepped : stepMain config state index .writePost = some next) :
    PagingOut config start next (index + 1) ∧ next.next = some (index + 1) := by
  simp only [stepMain, Option.map_eq_some_iff] at stepped
  obtain ⟨posted, ran, rfl⟩ := stepped
  obtain ⟨client, stepped, rfl⟩ := onClient_some ran
  obtain ⟨offset, bytes, inCall, threads, posted⟩ := writePost_step stepped
  rcases inv.main with idle | ⟨bound, waiting⟩
  · simp [idle] at inCall
  · rcases waiting with waiting | ⟨waiting, isMapped⟩
    · simp [waiting] at inCall
    · rw [waiting, Call.writePost.injEq] at inCall
      obtain ⟨rfl, rfl⟩ := inCall
      refine ⟨{ inv with
        bound := bound
        posted := ?_
        mapped := ?_
        others := fun tid other => ?_
        main := Or.inl ?_ }, rfl⟩
      · rw [posted, inv.posted, savedWrites, savedWrites, List.range_succ, List.map_append,
          List.map_singleton]
      · intro page early
        rcases Nat.lt_succ_iff_lt_or_eq.mp early with earlier | rfl
        · exact inv.mapped page earlier
        · exact isMapped
      · rw [threads, Function.update_of_ne other, inv.others tid other]
      · rw [threads, Function.update_self]

/-- After the last page the region is unmapped. -/
theorem PagingOut.unmap (backed : Backed physBits mm config) (starts : PagerStarts config start)
    (stepped : stepMain config state index .unmap = some next) :
    PagingIn config start next ∧ next.next = none := by
  have user := backed.user
  simp only [stepMain, Option.ite_none_left_eq_some] at stepped
  obtain ⟨past, unmapped⟩ := stepped
  obtain rfl : index = config.pageNr := Nat.le_antisymm inv.bound (Nat.not_lt.mp past)
  have idle : ∀ tid, state.client.threads tid = .idle := by
    intro tid
    by_cases isMain : tid = mainThread
    · rw [isMain]
      exact inv.main.resolve_right fun busy => absurd busy.1 (Nat.lt_irrefl _)
    · exact inv.others tid isMain
  rw [starts.pageBytes_page (Nat.le_refl _), inv.vm] at unmapped
  split at unmapped
  · rename_i vm ran
    obtain rfl := Option.some.inj unmapped
    have clears : 0 < config.pageNr → Grounded entryBuilt [treeOf config.pgroot] vm ∧
        Unmapped vm.mem config.pgroot config.page (pageLen config) := by
      intro some_
      have positive : 0 < pageLen config := Nat.mul_pos some_ (by decide)
      obtain ⟨after, done, grounded, _, blank⟩ := vmUnmap_unmaps (by omega) positive starts.built
        starts.inWindow starts.foreign
      rw [pageLen] at done
      obtain rfl := (Prod.mk.inj (ran.symm.trans done)).2
      exact ⟨grounded, blank⟩
    refine ⟨⟨fun some_ => (clears some_).1, inv.posted, inv.mapped, ?_, ?_, fun tid => Or.inl (idle tid),
      fun page inside => Or.inl ⟨?_, ?_⟩, ?_, ?_, ?_, ?_⟩, rfl⟩
    · intro tid holds
      simp [inv.faults tid, Fault.holdsLock] at holds
    · intro tid addr faulting
      simp [inv.faults tid, Fault.addr?] at faulting
    · obtain ⟨above, below, _, _⟩ := backed.pageAt_bounds inside
      have positive : 0 < pageSize := by decide
      exact (clears (Nat.zero_lt_of_lt inside)).2 _ above (by omega)
    · intro index
      simp [inv.stores]
    · intro tid page _ installed
      simp [inv.faults tid] at installed
    · intro tid page _ copied
      simp [inv.faults tid] at copied
    · intro page member
      simp [inv.handled] at member
    · intro load member
      simp [inv.loads] at member
  · simp at unmapped

theorem PagingOut.scribble {frame : PhysAddr} {bytes : Buf pageSize}
    (outside : unmappedFrame config state frame = true) :
    PagingOut config start { state with frames := Function.update state.frames frame bytes } index := by
  refine { inv with frames := fun page inside own maps => ?_ }
  have apart : own ≠ frame := by
    rintro rfl
    have different := List.all_eq_true.mp outside page (List.mem_range.mpr inside)
    rw [inv.vm, ← pageAt, ← firstFrame, maps] at different
    simp at different
  exact (Function.update_of_ne apart _ _).trans (inv.frames page inside own maps)

theorem PagingOut.keeps (backed : Backed physBits mm config) (starts : PagerStarts config start)
    (here : state.next = some index) {action : PagerAction}
    (stepped : pagerStep config state action = some next) : PagerInv config start next := by
  have out : ∀ {next}, next.next = some index → PagingOut config start next index →
      PagerInv config start next := by
    intro next isNext kept
    rw [PagerInv, isNext]
    exact kept
  cases action with
  | writeWait =>
      simp only [pagerStep, here] at stepped
      have kept := inv.writeWait starts stepped
      simp only [stepMain, Option.ite_none_right_eq_some] at stepped
      obtain ⟨client, _, rfl⟩ := onClient_some stepped.2
      exact out here kept
  | writeCopy =>
      simp only [pagerStep, here] at stepped
      have kept := inv.writeCopy backed starts stepped
      simp only [stepMain, Option.bind_eq_some_iff] at stepped
      obtain ⟨bytes, _, ran⟩ := stepped
      obtain ⟨client, _, rfl⟩ := onClient_some ran
      exact out here kept
  | writePost =>
      simp only [pagerStep, here] at stepped
      obtain ⟨kept, isNext⟩ := inv.writePost stepped
      rw [PagerInv, isNext]
      exact kept
  | unmap =>
      simp only [pagerStep, here] at stepped
      obtain ⟨kept, isNext⟩ := inv.unmap backed starts stepped
      rw [PagerInv, isNext]
      exact kept
  | scribble frame bytes =>
      simp only [pagerStep, Option.ite_none_right_eq_some] at stepped
      obtain ⟨outside, rfl⟩ := stepped.imp_right Option.some.inj
      exact out here (inv.scribble outside)
  | background action =>
      simp only [pagerStep, Option.ite_none_right_eq_some] at stepped
      obtain ⟨isBackground, ran⟩ := stepped
      obtain ⟨client, moved, rfl⟩ := onClient_some ran
      obtain ⟨threads, posted⟩ := background_step isBackground moved
      refine out here (inv.onClient posted ?_ ?_)
      · rw [threads]
        exact inv.others
      · rw [threads]
        exact inv.main
  | _ => simp [pagerStep, here] at stepped

end Out

end RdmaPaging
