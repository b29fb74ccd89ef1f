import RdmaPaging.PagerOut

/-!
Whole runs of the pager: page-out of every page, the unmapping of the region, and the page-ins of
any threads in any order.
-/

namespace RdmaPaging

open RadixTree

variable {physBits : Nat} {mm : MmStruct} {config : PagerConfig} {start state next : Pager}
variable {index page other tid addr : Nat}

/-! Page-in. -/

section In

variable (backed : Backed physBits mm config) (inv : PagingIn config start state)

theorem contents_untouched (backed : Backed physBits mm config) {stores : List (Nat × UInt8)}
    (inside : page < config.pageNr) (mapped : (firstFrame config start page).isSome = true)
    (untouched : Untouched stores page) (index : Fin pageSize) :
    contents config start stores (page * pageSize + index) = some (savedPage config start page index) := by
  obtain ⟨frame, maps⟩ := Option.isSome_iff_exists.mp mapped
  have read := backed.loadByte_page inside index.isLt maps
  rw [pageAt] at read
  rw [contents, untouched index, Option.none_or, ← Nat.add_assoc, read, savedPage, maps, Option.getD_some]

/-- What is in stays in while the tables, the frames and the stores do. -/
theorem PagedIn.same (paged : PagedIn config start state page) (vm : next.vm = state.vm)
    (frames : next.frames = state.frames) (stores : next.stores = state.stores) :
    PagedIn config start next page := by
  refine ⟨?_, ?_⟩
  · rw [vm]
    exact paged.mapped
  · rw [frames, stores]
    exact paged.bytes

theorem pageAt_injective (same : pageAt config page = pageAt config other) : page = other := by
  unfold pageAt pageSize at same
  omega

/-- A handler that holds the lock keeps it. -/
theorem PagingIn.lockUpdate (inv : PagingIn config start state) (holder : state.syscallMtx = some tid)
    (fault : Fault) (other : Nat)
    (holds : (Function.update state.faults tid fault other).holdsLock = true) :
    state.syscallMtx = some other := by
  by_cases same : other = tid
  · rw [same]
    exact holder
  · rw [Function.update_of_ne same] at holds
    exact inv.lock other holds

theorem PagingIn.placesUpdate {fault : Fault} (inv : PagingIn config start state)
    (place : ∀ addr, fault.addr? = some addr → ∃ page < config.pageNr, addr = pageAt config page)
    (other addr : Nat) (faulting : (Function.update state.faults tid fault other).addr? = some addr) :
    ∃ page < config.pageNr, addr = pageAt config page := by
  by_cases same : other = tid
  · rw [same, Function.update_self] at faulting
    exact place addr faulting
  · rw [Function.update_of_ne same] at faulting
    exact inv.places other addr faulting

/-- While a handler holds the lock no other has mapped its page. -/
theorem PagingIn.alone (inv : PagingIn config start state) (holder : state.syscallMtx = some tid)
    (different : other ≠ tid) (addr : Nat) : state.faults other ≠ .installed addr := by
  intro installed
  have lock := inv.lock other (by rw [installed]; rfl)
  exact different (Option.some.inj (lock.symm.trans holder))

/-- A step that only moves one fault on, into or out of a handler but not past its mapping. -/
theorem PagingIn.moveFault {fault : Fault} {mutex : Option Nat} {handled : List Nat}
    (inv : PagingIn config start state)
    (was : ∀ addr, state.faults tid ≠ .installed addr) (becomes : ∀ addr, fault ≠ .installed addr)
    (lock : ∀ other, ((Function.update state.faults tid fault) other).holdsLock = true → mutex = some other)
    (place : ∀ addr, fault.addr? = some addr → ∃ page < config.pageNr, addr = pageAt config page)
    (copied : ∀ page < config.pageNr, fault = .copied (pageAt config page) → PagedIn config start state page)
    (handled_ : ∀ page ∈ handled, page < config.pageNr ∧ PagedIn config start state page) :
    PagingIn config start
      { state.setFault tid fault with syscallMtx := mutex, handled := handled } := by
  have others : ∀ {other}, other ≠ tid →
      (Function.update state.faults tid fault) other = state.faults other :=
    fun different => Function.update_of_ne different _ _
  refine ⟨inv.built, inv.posted, inv.mapped, lock, inv.placesUpdate place, ?_, ?_, ?_, ?_, ?_, inv.loads⟩
  · intro other
    rcases inv.calls other with idle | ⟨page, inside, installed, calls⟩
    · exact Or.inl idle
    · refine Or.inr ⟨page, inside, ?_, calls⟩
      have different : other ≠ tid := by
        rintro rfl
        exact was _ installed
      exact (others different).trans installed
  · intro page inside
    rcases inv.pages page inside with blank | ⟨other, installed⟩ | paged
    · exact Or.inl blank
    · refine Or.inr (Or.inl ⟨other, ?_⟩)
      have different : other ≠ tid := by
        rintro rfl
        exact was _ installed
      exact (others different).trans installed
    · exact Or.inr (Or.inr (paged.same rfl rfl rfl))
  · intro other page inside installed
    change (Function.update state.faults tid fault) other = _ at installed
    by_cases same : other = tid
    · rw [same, Function.update_self] at installed
      exact absurd installed (becomes _)
    · rw [others same] at installed
      obtain ⟨mapped, untouched⟩ := inv.entered other page inside installed
      exact ⟨mapped, untouched⟩
  · intro other page inside isCopied
    change (Function.update state.faults tid fault) other = _ at isCopied
    by_cases same : other = tid
    · rw [same, Function.update_self] at isCopied
      exact (copied page inside isCopied).same rfl rfl rfl
    · rw [others same] at isCopied
      exact (inv.copied other page inside isCopied).same rfl rfl rfl
  · intro page member
    exact ⟨(handled_ page member).1, (handled_ page member).2.same rfl rfl rfl⟩

include backed inv in
theorem PagingIn.fault (aligned : addr % pageSize = 0)
    (stepped : stepTouch config state (.fault tid addr) = some next) : PagingIn config start next := by
  simp only [stepTouch, Option.ite_none_right_eq_some] at stepped
  obtain ⟨⟨free, inside, _⟩, rfl⟩ := stepped.imp_right Option.some.inj
  refine inv.moveFault (by simp [free]) (by simp) ?_ ?_ (by simp) inv.handled
  · intro other holds
    by_cases same : other = tid
    · rw [same, Function.update_self] at holds
      simp [Fault.holdsLock] at holds
    · rw [Function.update_of_ne same] at holds
      exact inv.lock other holds
  · intro touched isAddr
    obtain rfl : addr = touched := Option.some.inj isAddr
    exact backed.page_of_base inside aligned

include inv in
theorem PagingIn.takeLock (stepped : stepHandler config state (.lock tid) = some next) :
    PagingIn config start next := by
  simp only [stepHandler] at stepped
  split at stepped
  · rename_i addr taken free
    obtain rfl := Option.some.inj stepped
    refine inv.moveFault (by simp [taken]) (by simp) ?_ ?_ (by simp) inv.handled
    · intro other holds
      by_cases same : other = tid
      · rw [same]
      · rw [Function.update_of_ne same] at holds
        exact absurd (free.symm.trans (inv.lock other holds)) (by simp)
    · intro touched isAddr
      exact inv.places tid touched (by rw [taken]; exact isAddr)
  · simp at stepped

include inv in
theorem PagingIn.unlock (stepped : stepHandler config state (.unlock tid) = some next) :
    PagingIn config start next := by
  simp only [stepHandler] at stepped
  split at stepped
  · rename_i addr isCopied
    obtain rfl := Option.some.inj stepped
    obtain ⟨page, inside, rfl⟩ := inv.places tid addr (by rw [isCopied]; rfl)
    have holder := inv.lock tid (by rw [isCopied]; rfl)
    refine inv.moveFault (by simp [isCopied]) (by simp) ?_ (by simp [Fault.addr?]) (by simp) ?_
    · intro other holds
      by_cases same : other = tid
      · rw [same, Function.update_self] at holds
        simp [Fault.holdsLock] at holds
      · rw [Function.update_of_ne same] at holds
        exact absurd (Option.some.inj ((inv.lock other holds).symm.trans holder)) same
    · intro number member
      rcases List.mem_cons.mp member with isPage | earlier
      · have number_ : number = page := by
          rw [isPage, pageAt, Nat.add_sub_cancel_left, Nat.mul_div_cancel _ (by decide)]
        rw [number_]
        exact ⟨inside, inv.copied tid page inside isCopied⟩
      · exact inv.handled number earlier
  · simp at stepped

include inv in
/-- A step of the client alone. -/
theorem PagingIn.onClient {client : Client pageSize} (posted : client.posted = state.client.posted)
    (calls : ∀ other, ReadCall config { state with client := client } other) :
    PagingIn config start { state with client := client } where
  built := inv.built
  posted := posted.trans inv.posted
  mapped := inv.mapped
  lock := inv.lock
  places := inv.places
  calls := calls
  pages := fun page inside => (inv.pages page inside).imp_right
    (Or.imp_right fun paged => paged.same rfl rfl rfl)
  entered := fun other page inside installed =>
    ⟨(inv.entered other page inside installed).mapped, (inv.entered other page inside installed).untouched⟩
  copied := fun other page inside isCopied => (inv.copied other page inside isCopied).same rfl rfl rfl
  handled := fun page member => ⟨(inv.handled page member).1, (inv.handled page member).2.same rfl rfl rfl⟩
  loads := inv.loads

include inv in
/-- A step of one thread's call. -/
theorem PagingIn.call {client : Client pageSize} {call : Call pageSize}
    (threads : client.threads = Function.update state.client.threads tid call)
    (posted : client.posted = state.client.posted)
    (mine : ReadCall config { state with client := client } tid) :
    PagingIn config start { state with client := client } := by
  refine inv.onClient posted fun other => ?_
  by_cases same : other = tid
  · rw [same]
    exact mine
  · have old : client.threads other = state.client.threads other := by
      rw [threads, Function.update_of_ne same]
    have calls := inv.calls other
    rw [ReadCall] at calls ⊢
    rw [← old] at calls
    exact calls

theorem Backed.fault_offset (backed : Backed physBits mm config) (inside : page < config.pageNr) :
    (BitVec.ofNat 64 (pageAt config page) - BitVec.ofNat 64 config.page).toNat = page * pageSize := by
  obtain ⟨above, _, below, _⟩ := backed.pageAt_bounds inside
  rw [BitVec.toNat_sub, BitVec.toNat_ofNat, BitVec.toNat_ofNat]
  unfold pageAt pageSize at *
  omega

include backed inv in
theorem PagingIn.readPost (stepped : stepHandler config state (.readPost tid) = some next) :
    PagingIn config start next := by
  simp only [stepHandler] at stepped
  split at stepped
  · rename_i addr installed
    obtain ⟨page, inside, rfl⟩ := inv.places tid addr (by rw [installed]; rfl)
    rw [backed.fault_offset inside] at stepped
    obtain ⟨client, moved, rfl⟩ := onClient_some stepped
    obtain ⟨_, threads, posted⟩ := readPost_step moved
    refine inv.call threads posted (Or.inr ⟨page, inside, installed, state.client.readsPosted, Or.inl ?_⟩)
    have count : state.client.posted.length = config.pageNr := by
      rw [inv.posted, savedWrites, List.length_map, List.length_range]
    rw [← count]
    change client.threads tid = _
    rw [threads, Function.update_self]
  · simp at stepped

include inv in
theorem PagingIn.readWait (stepped : stepHandler config state (.readWait tid) = some next) :
    PagingIn config start next := by
  simp only [stepHandler] at stepped
  split at stepped
  · obtain ⟨client, moved, rfl⟩ := onClient_some stepped
    obtain ⟨offset, before, ticket, inCall, threads, posted⟩ := readWait_step moved
    refine inv.call threads posted ?_
    rcases inv.calls tid with idle | ⟨page, inside, isInstalled, own, waiting | copying⟩
    · simp [idle] at inCall
    · rw [waiting, Call.readWait.injEq] at inCall
      obtain ⟨rfl, rfl, rfl⟩ := inCall
      refine Or.inr ⟨page, inside, isInstalled, own, Or.inr ?_⟩
      change client.threads tid = _
      rw [threads, Function.update_self]
    · simp [copying] at inCall
  · simp at stepped

/-- A page that is not mapped is blank. -/
theorem PagingIn.blank (inv : PagingIn config start state)
    (inside : page < config.pageNr) (unmapped : frameAt config state.vm (pageAt config page) = none) :
    BlankPage config state.vm page ∧ Untouched state.stores page := by
  rcases inv.pages page inside with blank | ⟨other, installed⟩ | paged
  · exact blank
  · rw [(inv.entered other page inside installed).mapped] at unmapped
    exact absurd unmapped (by simp)
  · rw [paged.mapped] at unmapped
    exact absurd unmapped (by simp)

include backed inv in
/-- The page of the fault is mapped, and nothing becomes of the others. -/
theorem PagingIn.install (allowed : touchGuard config state (.install tid))
    (stepped : stepHandler config state (.install tid) = some next) : PagingIn config start next := by
  simp only [stepHandler] at stepped
  split at stepped
  · rename_i addr locked
    split at stepped
    · rename_i slot looked looks
      obtain rfl := Option.some.inj stepped
      obtain ⟨page, inside, rfl⟩ := inv.places tid addr (by rw [locked]; rfl)
      obtain ⟨unmapped, bounded⟩ := allowed _ locked
      rw [looks] at bounded
      obtain ⟨blank, untouched⟩ := inv.blank inside unmapped
      have installs := backed.installs (inv.built (Nat.zero_lt_of_lt inside)) inside blank looks bounded
      have holder := inv.lock tid (by rw [locked]; rfl)
      have others : ∀ {other}, other ≠ tid → (Function.update state.faults tid
          (Fault.installed (pageAt config page))) other = state.faults other :=
        fun different => Function.update_of_ne different _ _
      -- the lock is held and this handler has not mapped its page yet, so none has
      have alone : ∀ other touched, state.faults other ≠ .installed touched := by
        intro other touched
        by_cases same : other = tid
        · simp [same, locked]
        · exact inv.alone holder same touched
      have stays : ∀ number < config.pageNr, PagedIn config start state number →
          PagedIn config start { state.setFault tid (.installed (pageAt config page)) with
            vm := looked.setPte slot (faultPte config (pageAt config page)) } number := by
        intro number numberInside paged
        have different : number ≠ page := by
          rintro rfl
          exact absurd (unmapped.symm.trans paged.mapped) (by simp)
        exact ⟨(installs.kept number numberInside different).trans paged.mapped, paged.bytes⟩
      refine ⟨fun _ => installs.grounded, inv.posted, inv.mapped, inv.lockUpdate holder _,
        inv.placesUpdate fun touched isAddr => ⟨page, inside, (Option.some.inj isAddr).symm⟩,
        ?_, ?_, ?_, ?_, ?_, inv.loads⟩
      · intro other
        rcases inv.calls other with idle | ⟨number, _, installed, _⟩
        · exact Or.inl idle
        · exact absurd installed (alone _ _)
      · intro number numberInside
        by_cases same : number = page
        · rw [same]
          exact Or.inr (Or.inl ⟨tid, Function.update_self _ _ _⟩)
        · rcases inv.pages number numberInside with ⟨isBlank, rest⟩ | ⟨other, installed⟩ | paged
          · exact Or.inl ⟨installs.blank number numberInside same isBlank, rest⟩
          · exact absurd installed (alone _ _)
          · exact Or.inr (Or.inr (stays number numberInside paged))
      · intro other number numberInside installed
        change (Function.update state.faults tid _) other = _ at installed
        by_cases same : other = tid
        · rw [same, Function.update_self, Fault.installed.injEq] at installed
          rw [← pageAt_injective installed]
          exact ⟨installs.own, untouched⟩
        · rw [others same] at installed
          exact absurd installed (alone _ _)
      · intro other number numberInside isCopied
        change (Function.update state.faults tid _) other = _ at isCopied
        by_cases same : other = tid
        · rw [same, Function.update_self] at isCopied
          exact absurd isCopied (by simp)
        · rw [others same] at isCopied
          exact stays number numberInside (inv.copied other number numberInside isCopied)
      · intro number member
        exact ⟨(inv.handled number member).1, stays number (inv.handled number member).1
          (inv.handled number member).2⟩
    · simp at stepped
  · simp at stepped

/-- The copy of a page changes no other page, and not this one if it was in. -/
theorem PagedIn.copy {number : Nat} (backed : Backed physBits mm config) (inside : page < config.pageNr)
    (mapped : (firstFrame config start page).isSome = true) (untouched : Untouched state.stores page)
    (numberInside : number < config.pageNr) (paged : PagedIn config start state number)
    (vm : next.vm = state.vm) (stores : next.stores = state.stores)
    (frames : next.frames =
      Function.update state.frames (ownFrame config page) (savedPage config start page)) :
    PagedIn config start next number := by
  refine ⟨by rw [vm]; exact paged.mapped, fun index => ?_⟩
  rw [stores, frames]
  by_cases same : number = page
  · rw [same, Function.update_self, contents_untouched backed inside mapped untouched]
  · have apart : ownFrame config number ≠ ownFrame config page := fun frame =>
      same (backed.ownFrame_injective numberInside inside frame)
    rw [Function.update_of_ne apart]
    exact paged.bytes index

theorem PagedIn.filled (backed : Backed physBits mm config) (inside : page < config.pageNr)
    (mapped : (firstFrame config start page).isSome = true) (entering : Entering config state page)
    (vm : next.vm = state.vm) (stores : next.stores = state.stores)
    (frames : next.frames =
      Function.update state.frames (ownFrame config page) (savedPage config start page)) :
    PagedIn config start next page := by
  refine ⟨by rw [vm]; exact entering.mapped, fun index => ?_⟩
  rw [stores, frames, Function.update_self, contents_untouched backed inside mapped entering.untouched]

include backed inv in
/-- The copy fills the page with what was paged out. -/
theorem PagingIn.readCopy (data : DataInv start.client state.client)
    (stepped : stepHandler config state (.readCopy tid) = some next) : PagingIn config start next := by
  simp only [stepHandler] at stepped
  split at stepped
  · rename_i addr installed
    simp only [Option.bind_eq_some_iff, Option.map_eq_some_iff] at stepped
    obtain ⟨frames, filled, returned, ran, rfl⟩ := stepped
    obtain ⟨client, moved, rfl⟩ := onClient_some ran
    obtain ⟨offset, before, ticket, inCall, threads, posted⟩ := readCopy_step moved
    obtain ⟨page, inside, rfl⟩ := inv.places tid addr (by rw [installed]; rfl)
    have entering := inv.entered tid page inside installed
    have holder := inv.lock tid (by rw [installed]; rfl)
    have others : ∀ {other}, other ≠ tid → (Function.update state.faults tid
        (Fault.copied (pageAt config page))) other = state.faults other :=
      fun different => Function.update_of_ne different _ _
    -- the landing buffer holds the bytes of the page's own write
    have landed : state.client.conn.rdmaLocalRegion = savedPage config start page := by
      rcases inv.calls tid with idle | ⟨number, _, isInstalled, own, waiting | copying⟩
      · simp [idle] at inCall
      · simp [waiting] at inCall
      · rw [installed, Fault.installed.injEq] at isInstalled
        rw [(data.readSide.copying tid _ _ _ copying).2.2.2, expected, inv.posted,
          ← pageAt_injective isInstalled,
          List.take_of_length_le (by rw [savedWrites, List.length_map, List.length_range])]
        exact remoteAfter_blocks _ _ (savedPage config start) inside
    have sameFrame : ∀ other, other / pageSize = pageAt config page / pageSize →
        frameAt config state.vm other = some (ownFrame config page) := by
      intro other same
      rw [frameAt, same]
      exact entering.mapped
    rw [storeBytes_page state _ (backed.pageAt_bounds inside).2.2.2 sameFrame, landed,
      Option.some.injEq] at filled
    subst filled
    have isSaved := inv.mapped page inside
    refine ⟨inv.built, posted.trans inv.posted, inv.mapped, inv.lockUpdate holder _,
      inv.placesUpdate fun touched isAddr => ⟨page, inside, (Option.some.inj isAddr).symm⟩,
      ?_, ?_, ?_, ?_, ?_, inv.loads⟩
    · intro other
      left
      change client.threads other = .idle
      by_cases same : other = tid
      · rw [same, threads, Function.update_self]
      · rw [threads, Function.update_of_ne same]
        rcases inv.calls other with idle | ⟨number, _, isInstalled, _⟩
        · exact idle
        · exact absurd isInstalled (inv.alone holder same _)
    · intro number numberInside
      by_cases same : number = page
      · rw [same]
        exact Or.inr (Or.inr (PagedIn.filled backed inside isSaved entering rfl rfl rfl))
      · rcases inv.pages number numberInside with blank | ⟨other, isInstalled⟩ | paged
        · exact Or.inl blank
        · by_cases isTid : other = tid
          · rw [isTid, installed, Fault.installed.injEq] at isInstalled
            exact absurd (pageAt_injective isInstalled).symm same
          · exact absurd isInstalled (inv.alone holder isTid _)
        · exact Or.inr (Or.inr (paged.copy backed inside isSaved entering.untouched numberInside rfl rfl rfl))
    · intro other number numberInside isInstalled
      change (Function.update state.faults tid _) other = _ at isInstalled
      by_cases same : other = tid
      · rw [same, Function.update_self] at isInstalled
        exact absurd isInstalled (by simp)
      · rw [others same] at isInstalled
        exact absurd isInstalled (inv.alone holder same _)
    · intro other number numberInside isCopied
      change (Function.update state.faults tid _) other = _ at isCopied
      by_cases same : other = tid
      · rw [same, Function.update_self, Fault.copied.injEq] at isCopied
        rw [← pageAt_injective isCopied]
        exact PagedIn.filled backed inside isSaved entering rfl rfl rfl
      · rw [others same] at isCopied
        have paged := inv.copied other number numberInside isCopied
        exact paged.copy backed inside isSaved entering.untouched numberInside rfl rfl rfl
    · intro number member
      obtain ⟨numberInside, paged⟩ := inv.handled number member
      exact ⟨numberInside, paged.copy backed inside isSaved entering.untouched numberInside rfl rfl rfl⟩
  · simp at stepped

/-- The page of an access that succeeds is in. -/
theorem PagingIn.accessed (backed : Backed physBits mm config) (inv : PagingIn config start state)
    (inside : inRegion config addr = true) (maps : (frameAt config state.vm addr).isSome = true)
    (apart : ∀ tid other, state.faults tid = .installed other → other / pageSize ≠ addr / pageSize) :
    ∃ page < config.pageNr, ∃ index : Fin pageSize, addr = pageAt config page + index ∧
      PagedIn config start state page := by
  obtain ⟨page, pageInside, index, bound, rfl⟩ := page_of_mem inside
  refine ⟨page, pageInside, ⟨index, bound⟩, rfl, ?_⟩
  rw [backed.frameAt_byte pageInside bound] at maps
  rcases inv.pages page pageInside with ⟨blank, _⟩ | ⟨other, installed⟩ | paged
  · rw [blank.frame backed (inv.built (Nat.zero_lt_of_lt pageInside)) pageInside] at maps
    exact absurd maps (by simp)
  · have number := apart other _ installed
    obtain ⟨base, _⟩ := backed.page_number pageInside bound
    have aligned := (backed.pageAt_bounds pageInside).2.2.2
    unfold pageSize at *
    omega
  · exact paged

include backed inv in
theorem PagingIn.load (allowed : touchGuard config state (.load tid addr))
    (stepped : stepTouch config state (.load tid addr) = some next) : PagingIn config start next := by
  simp only [stepTouch, Option.ite_none_right_eq_some, Option.map_eq_some_iff] at stepped
  obtain ⟨⟨_, inside⟩, value, read, rfl⟩ := stepped
  have maps : (frameAt config state.vm addr).isSome = true := by
    cases found : frameAt config state.vm addr with
    | none => simp [loadByte, found] at read
    | some frame => rfl
  obtain ⟨page, pageInside, index, rfl, paged⟩ := inv.accessed backed inside maps allowed
  rw [backed.loadByte_page pageInside index.isLt paged.mapped] at read
  have offset : pageAt config page + index - config.page = page * pageSize + index := by
    rw [pageAt, Nat.add_assoc, Nat.add_sub_cancel_left]
  refine ⟨inv.built, inv.posted, inv.mapped, inv.lock, inv.places, inv.calls, fun number numberInside => ?_,
    fun other number numberInside installed => ?_, fun other number numberInside isCopied =>
      (inv.copied other number numberInside isCopied).same rfl rfl rfl, fun number member =>
      ⟨(inv.handled number member).1, (inv.handled number member).2.same rfl rfl rfl⟩, ?_⟩
  · exact (inv.pages number numberInside).imp_right (Or.imp_right fun paged => paged.same rfl rfl rfl)
  · have entering := inv.entered other number numberInside installed
    exact ⟨entering.mapped, entering.untouched⟩
  · intro load member
    rcases List.mem_cons.mp member with rfl | earlier
    · dsimp only
      rw [offset, ← paged.bytes index, ← read]
    · exact inv.loads load earlier

/-- A byte of another page, or another byte of the page. -/
theorem offset_ne {number : Nat} {index at_ : Fin pageSize} (different : ¬ (number = page ∧ at_ = index)) :
    number * pageSize + at_ ≠ page * pageSize + index := by
  have bound := index.isLt
  have atBound := at_.isLt
  intro same
  apply different
  have isPage : number = page := by
    unfold pageSize at *
    omega
  refine ⟨isPage, Fin.ext ?_⟩
  rw [isPage] at same
  exact Nat.add_left_cancel same

include backed inv in
theorem PagingIn.store {value : UInt8} (allowed : touchGuard config state (.store tid addr value))
    (stepped : stepTouch config state (.store tid addr value) = some next) :
    PagingIn config start next := by
  simp only [stepTouch, Option.ite_none_right_eq_some, Option.map_eq_some_iff] at stepped
  obtain ⟨⟨_, inside⟩, frames, stored, rfl⟩ := stepped
  have maps : (frameAt config state.vm addr).isSome = true := by
    cases found : frameAt config state.vm addr with
    | none => simp [storeByte, found] at stored
    | some frame => rfl
  obtain ⟨page, pageInside, index, rfl, paged⟩ := inv.accessed backed inside maps allowed
  have position : pageOffset (pageAt config page + index) = index :=
    Fin.ext (backed.page_number pageInside index.isLt).2
  rw [storeByte, backed.frameAt_byte pageInside index.isLt, paged.mapped, Option.map_some, position,
    Option.some.injEq] at stored
  have offset : pageAt config page + index - config.page = page * pageSize + index := by
    rw [pageAt, Nat.add_assoc, Nat.add_sub_cancel_left]
  rw [offset]
  subst stored
  have missed : ∀ number, number ≠ page → ∀ at_ : Fin pageSize,
      ((page * pageSize + (index : Nat), value) :: state.stores).lookup (number * pageSize + at_) =
        state.stores.lookup (number * pageSize + at_) := by
    intro number different at_
    rw [List.lookup_cons, beq_false_of_ne (offset_ne fun both => different both.1)]
  have untouched : ∀ number, number ≠ page → Untouched state.stores number →
      Untouched ((page * pageSize + (index : Nat), value) :: state.stores) number :=
    fun number different clean at_ => (missed number different at_).trans (clean at_)
  have stays : ∀ number < config.pageNr, PagedIn config start state number → PagedIn config start
      { state with
        frames := Function.update state.frames (ownFrame config page)
          (Function.update (state.frames (ownFrame config page)) index value)
        stores := (page * pageSize + (index : Nat), value) :: state.stores } number := by
    intro number numberInside old
    refine ⟨old.mapped, fun at_ => ?_⟩
    have bytes := old.bytes at_
    rw [contents] at bytes
    rw [contents, List.lookup_cons]
    by_cases same : number = page ∧ at_ = index
    · obtain ⟨rfl, rfl⟩ := same
      simp
    · rw [beq_false_of_ne (offset_ne same)]
      dsimp only
      rw [← bytes]
      by_cases isPage : number = page
      · rw [isPage, Function.update_self, Function.update_of_ne fun isIndex => same ⟨isPage, isIndex⟩]
      · rw [Function.update_of_ne fun frame =>
          isPage (backed.ownFrame_injective numberInside pageInside frame)]
  refine ⟨inv.built, inv.posted, inv.mapped, inv.lock, inv.places, inv.calls, fun number numberInside => ?_,
    fun other number numberInside installed => ?_, fun other number numberInside isCopied =>
      stays number numberInside (inv.copied other number numberInside isCopied), fun number member =>
      ⟨(inv.handled number member).1, stays number (inv.handled number member).1
        (inv.handled number member).2⟩, inv.loads⟩
  · by_cases same : number = page
    · rw [same]
      exact Or.inr (Or.inr (stays page pageInside paged))
    · rcases inv.pages number numberInside with ⟨blank, clean⟩ | entering | old
      · exact Or.inl ⟨blank, untouched number same clean⟩
      · exact Or.inr (Or.inl entering)
      · exact Or.inr (Or.inr (stays number numberInside old))
  · have entering := inv.entered other number numberInside installed
    refine ⟨entering.mapped, untouched number ?_ entering.untouched⟩
    rintro rfl
    have apart := allowed other _ installed
    obtain ⟨base, _⟩ := backed.page_number numberInside index.isLt
    have aligned := (backed.pageAt_bounds numberInside).2.2.2
    unfold pageSize at *
    omega

include inv in
theorem PagingIn.scribble {frame : PhysAddr} {bytes : Buf pageSize}
    (outside : unmappedFrame config state frame = true) :
    PagingIn config start { state with frames := Function.update state.frames frame bytes } := by
  have stays : ∀ number < config.pageNr, PagedIn config start state number →
      PagedIn config start { state with frames := Function.update state.frames frame bytes } number := by
    intro number numberInside paged
    refine ⟨paged.mapped, fun index => ?_⟩
    have apart : ownFrame config number ≠ frame := by
      rintro rfl
      have different := List.all_eq_true.mp outside number (List.mem_range.mpr numberInside)
      rw [← pageAt, paged.mapped] at different
      simp at different
    rw [← paged.bytes index]
    dsimp only
    rw [Function.update_of_ne apart]
  refine ⟨inv.built, inv.posted, inv.mapped, inv.lock, inv.places, inv.calls, fun number numberInside => ?_,
    fun other number numberInside installed => ?_, fun other number numberInside isCopied =>
      stays number numberInside (inv.copied other number numberInside isCopied), fun number member =>
      ⟨(inv.handled number member).1, stays number (inv.handled number member).1
        (inv.handled number member).2⟩, inv.loads⟩
  · exact (inv.pages number numberInside).imp_right (Or.imp_right (stays number numberInside))
  · have entering := inv.entered other number numberInside installed
    exact ⟨entering.mapped, entering.untouched⟩

/-- No step after page-out begins it again. -/
theorem next_none (here : state.next = none) {action : PagerAction}
    (stepped : pagerStep config state action = some next) : next.next = none := by
  have client : ∀ {action next}, state.onClient action = some next → next.next = none := by
    intro action next ran
    obtain ⟨client, _, rfl⟩ := onClient_some ran
    exact here
  cases action with
  | lock tid | unlock tid =>
      simp only [pagerStep, here, stepHandler] at stepped
      split at stepped
      · obtain rfl := Option.some.inj stepped
        exact here
      · simp at stepped
  | install tid =>
      simp only [pagerStep, here, stepHandler] at stepped
      split at stepped
      · split at stepped
        · obtain rfl := Option.some.inj stepped
          exact here
        · simp at stepped
      · simp at stepped
  | readPost tid | readWait tid =>
      simp only [pagerStep, here, stepHandler] at stepped
      split at stepped
      · exact client stepped
      · simp at stepped
  | readCopy tid =>
      simp only [pagerStep, here, stepHandler] at stepped
      split at stepped
      · simp only [Option.bind_eq_some_iff, Option.map_eq_some_iff] at stepped
        obtain ⟨_, _, returned, ran, rfl⟩ := stepped
        obtain ⟨_, _, rfl⟩ := onClient_some ran
        exact here
      · simp at stepped
  | fault tid addr =>
      simp only [pagerStep, here, stepTouch, Option.ite_none_right_eq_some] at stepped
      obtain ⟨_, rfl⟩ := stepped.imp_right Option.some.inj
      exact here
  | load tid addr | store tid addr value =>
      simp only [pagerStep, here, stepTouch, Option.ite_none_right_eq_some, Option.map_eq_some_iff] at stepped
      obtain ⟨_, _, _, rfl⟩ := stepped
      rfl
  | scribble frame bytes =>
      simp only [pagerStep, Option.ite_none_right_eq_some] at stepped
      obtain ⟨_, rfl⟩ := stepped.imp_right Option.some.inj
      exact here
  | background action =>
      simp only [pagerStep, Option.ite_none_right_eq_some] at stepped
      exact client stepped.2
  | _ => simp [pagerStep, here] at stepped

include backed inv in
theorem PagingIn.keeps (data : DataInv start.client state.client) (here : state.next = none)
    {action : PagerAction} (allowed : touchGuard config state action)
    (stepped : pagerStep config state action = some next) : PagerInv config start next := by
  rw [PagerInv, next_none here stepped]
  cases action with
  | fault tid addr => exact inv.fault backed allowed (by simpa only [pagerStep, here] using stepped)
  | lock tid => exact inv.takeLock (by simpa only [pagerStep, here] using stepped)
  | install tid => exact inv.install backed allowed (by simpa only [pagerStep, here] using stepped)
  | readPost tid => exact inv.readPost backed (by simpa only [pagerStep, here] using stepped)
  | readWait tid => exact inv.readWait (by simpa only [pagerStep, here] using stepped)
  | readCopy tid => exact inv.readCopy backed data (by simpa only [pagerStep, here] using stepped)
  | unlock tid => exact inv.unlock (by simpa only [pagerStep, here] using stepped)
  | load tid addr => exact inv.load backed allowed (by simpa only [pagerStep, here] using stepped)
  | store tid addr value => exact inv.store backed allowed (by simpa only [pagerStep, here] using stepped)
  | scribble frame bytes =>
      simp only [pagerStep, Option.ite_none_right_eq_some] at stepped
      obtain ⟨outside, rfl⟩ := stepped.imp_right Option.some.inj
      exact inv.scribble outside
  | background action =>
      simp only [pagerStep, Option.ite_none_right_eq_some] at stepped
      obtain ⟨isBackground, ran⟩ := stepped
      obtain ⟨client, moved, rfl⟩ := onClient_some ran
      obtain ⟨threads, posted⟩ := background_step isBackground moved
      refine inv.onClient posted fun other => ?_
      have calls := inv.calls other
      rw [ReadCall] at calls ⊢
      dsimp only
      rw [threads]
      exact calls
  | _ => simp [pagerStep, here] at stepped

end In

/-! Runs. -/

/-- A page of the region fits the server's. -/
theorem PagerStarts.fits (starts : PagerStarts config start) (data : DataInv start.client state.client)
    (inside : page < config.pageNr) :
    page * pageSize + pageSize ≤ state.client.conn.peerMr.length := by
  have served := starts.served
  have order := Nat.mul_le_mul_right pageSize (show page + 1 ≤ config.pageNr from inside)
  rw [data.plumbing.peerMr]
  rw [Nat.add_mul, Nat.one_mul] at order
  unfold pageLen at served
  omega

theorem PagingOut.client_step (starts : PagerStarts config start) (inv : PagingOut config start state index)
    (here : state.next = some index) (data : DataInv start.client state.client) {action : PagerAction}
    (stepped : pagerStep config state action = some next) :
    next.client = state.client ∨ ∃ lowAction, dataGuard state.client lowAction ∧
      step state.client lowAction = some next.client := by
  cases action with
  | writeWait =>
      simp only [pagerStep, here, stepMain, Option.ite_none_right_eq_some] at stepped
      obtain ⟨bound, ran⟩ := stepped
      obtain ⟨client, moved, rfl⟩ := onClient_some ran
      refine Or.inr ⟨_, ?_, moved⟩
      rw [starts.pageBytes_page inv.bound]
      exact starts.fits data bound
  | writeCopy =>
      simp only [pagerStep, here, stepMain, Option.bind_eq_some_iff] at stepped
      obtain ⟨bytes, _, ran⟩ := stepped
      obtain ⟨client, moved, rfl⟩ := onClient_some ran
      exact Or.inr ⟨.writeCopy mainThread bytes, trivial, moved⟩
  | writePost =>
      simp only [pagerStep, here, stepMain, Option.map_eq_some_iff] at stepped
      obtain ⟨_, ran, rfl⟩ := stepped
      obtain ⟨client, moved, rfl⟩ := onClient_some ran
      exact Or.inr ⟨.writePost mainThread, trivial, moved⟩
  | unmap =>
      simp only [pagerStep, here, stepMain, Option.ite_none_left_eq_some] at stepped
      obtain ⟨_, unmapped⟩ := stepped
      split at unmapped
      · obtain rfl := Option.some.inj unmapped
        exact Or.inl rfl
      · simp at unmapped
  | scribble frame bytes =>
      simp only [pagerStep, Option.ite_none_right_eq_some] at stepped
      obtain ⟨_, rfl⟩ := stepped.imp_right Option.some.inj
      exact Or.inl rfl
  | background action =>
      simp only [pagerStep, Option.ite_none_right_eq_some] at stepped
      obtain ⟨isBackground, ran⟩ := stepped
      obtain ⟨client, moved, rfl⟩ := onClient_some ran
      exact Or.inr ⟨action, background_guard isBackground, moved⟩
  | _ => simp [pagerStep, here] at stepped

theorem PagingIn.client_step (backed : Backed physBits mm config) (starts : PagerStarts config start)
    (inv : PagingIn config start state) (here : state.next = none)
    (data : DataInv start.client state.client) {action : PagerAction}
    (stepped : pagerStep config state action = some next) :
    next.client = state.client ∨ ∃ lowAction, dataGuard state.client lowAction ∧
      step state.client lowAction = some next.client := by
  cases action with
  | lock tid | unlock tid =>
      simp only [pagerStep, here, stepHandler] at stepped
      split at stepped
      · obtain rfl := Option.some.inj stepped
        exact Or.inl rfl
      · simp at stepped
  | install tid =>
      simp only [pagerStep, here, stepHandler] at stepped
      split at stepped
      · split at stepped
        · obtain rfl := Option.some.inj stepped
          exact Or.inl rfl
        · simp at stepped
      · simp at stepped
  | readPost tid =>
      simp only [pagerStep, here, stepHandler] at stepped
      split at stepped
      · rename_i addr installed
        obtain ⟨page, inside, rfl⟩ := inv.places tid addr (by rw [installed]; rfl)
        rw [backed.fault_offset inside] at stepped
        obtain ⟨client, moved, rfl⟩ := onClient_some stepped
        refine Or.inr ⟨.readPost tid (page * pageSize), ⟨starts.fits data inside, fun other => ?_⟩, moved⟩
        -- a thread in a read holds the lock, as this handler does, and this one is in none
        have idle : state.client.threads other = .idle := by
          rcases inv.calls other with idle | ⟨_, _, isInstalled, _⟩
          · exact idle
          · by_cases same : other = tid
            · rw [same]
              exact (readPost_step moved).1
            · exact absurd isInstalled (inv.alone (inv.lock tid (by rw [installed]; rfl)) same _)
        rw [idle]
        rfl
      · simp at stepped
  | readWait tid =>
      simp only [pagerStep, here, stepHandler] at stepped
      split at stepped
      · obtain ⟨client, moved, rfl⟩ := onClient_some stepped
        exact Or.inr ⟨.readWait tid, trivial, moved⟩
      · simp at stepped
  | readCopy tid =>
      simp only [pagerStep, here, stepHandler] at stepped
      split at stepped
      · simp only [Option.bind_eq_some_iff, Option.map_eq_some_iff] at stepped
        obtain ⟨_, _, returned, ran, rfl⟩ := stepped
        obtain ⟨client, moved, rfl⟩ := onClient_some ran
        exact Or.inr ⟨.readCopy tid, trivial, moved⟩
      · simp at stepped
  | fault tid addr =>
      simp only [pagerStep, here, stepTouch, Option.ite_none_right_eq_some] at stepped
      obtain ⟨_, rfl⟩ := stepped.imp_right Option.some.inj
      exact Or.inl rfl
  | load tid addr | store tid addr value =>
      simp only [pagerStep, here, stepTouch, Option.ite_none_right_eq_some, Option.map_eq_some_iff] at stepped
      obtain ⟨_, _, _, rfl⟩ := stepped
      exact Or.inl rfl
  | scribble frame bytes =>
      simp only [pagerStep, Option.ite_none_right_eq_some] at stepped
      obtain ⟨_, rfl⟩ := stepped.imp_right Option.some.inj
      exact Or.inl rfl
  | background action =>
      simp only [pagerStep, Option.ite_none_right_eq_some] at stepped
      obtain ⟨isBackground, ran⟩ := stepped
      obtain ⟨client, moved, rfl⟩ := onClient_some ran
      exact Or.inr ⟨action, background_guard isBackground, moved⟩
  | _ => simp [pagerStep, here] at stepped

/-- Every run keeps the invariant of the pager and that of its client. -/
theorem pager_inv (backed : Backed physBits mm config) (starts : PagerStarts config start)
    (run : Machine.Reaches (pagerStep config) (touchGuard config) start state) :
    PagerInv config start state ∧ DataInv start.client state.client := by
  refine run.invariant (fun state => PagerInv config start state ∧ DataInv start.client state.client)
    ⟨starts.inv, starts.client.dataInv⟩ ?_
  rintro state action next ⟨inv, data⟩ allowed stepped
  have both : PagerInv config start next ∧ (next.client = state.client ∨ ∃ lowAction,
      dataGuard state.client lowAction ∧ step state.client lowAction = some next.client) := by
    rw [PagerInv] at inv
    split at inv
    · rename_i index here
      exact ⟨inv.keeps backed starts here stepped, inv.client_step starts here data stepped⟩
    · rename_i here
      exact ⟨inv.keeps backed data here allowed stepped, inv.client_step backed starts here data stepped⟩
  refine ⟨both.1, ?_⟩
  rcases both.2 with same | ⟨lowAction, lowAllowed, moved⟩
  · rw [same]
    exact data
  · exact step_dataInv data lowAllowed moved

/-- What a run comes to: a page that has been handled is mapped to its own frame, and it and every
load from the region have the bytes that were paged out, or a later store's. -/
structure MemoryKept (config : PagerConfig) (start state : Pager) : Prop where
  handled : ∀ page ∈ state.handled, frameAt config state.vm (pageAt config page) =
    some (duneVaToPa config.layout (BitVec.ofNat 64 (pageAt config page)))
  bytes : ∀ page ∈ state.handled, ∀ index < pageSize,
    loadByte config state (pageAt config page + index) =
      contents config start state.stores (page * pageSize + index)
  loads : ∀ load ∈ state.loads, some load.value = contents config start load.earlier load.offset

theorem PagerInv.memoryKept (backed : Backed physBits mm config) (inv : PagerInv config start state) :
    MemoryKept config start state := by
  rw [PagerInv] at inv
  split at inv
  · refine ⟨?_, ?_, ?_⟩ <;> simp [inv.handled, inv.loads]
  · refine ⟨fun page member => (inv.handled page member).2.mapped, ?_, inv.loads⟩
    intro page member index bound
    obtain ⟨inside, paged⟩ := inv.handled page member
    rw [backed.loadByte_page inside bound paged.mapped]
    exact paged.bytes ⟨index, bound⟩

/-- Paging out and in, by any threads, keeps the memory of the region. -/
theorem paging_keeps_memory (backed : Backed physBits mm config) (starts : PagerStarts config start)
    (run : Machine.Reaches (pagerStep config) (touchGuard config) start state) :
    MemoryKept config start state :=
  (pager_inv backed starts run).1.memoryKept backed

end RdmaPaging
