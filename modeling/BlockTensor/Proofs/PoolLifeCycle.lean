import BlockTensor.Config

/-!
# The life of the process-wide pool

Three calls work on the process-wide pool: `GlobalPool.configure` and `EngineConfig.apply` set its
size, `GlobalPool.acquire` gets it and starts it where it has not been started. Each holds the lock
of the state from first to last, so that the calls of all callers come one after the other.

* `Step` is what a call can do. A call that fails changes nothing.
* `history` is the log of a sequence of calls and the state that it ends in, and `Inv` what the
  state says of the log: `Inv.call` is its step, `inv_history` the whole run.
* `Inv.accepts_iff` and `Inv.gives_iff`: what is refused, told from the log alone.
* `history_lifeCycle`: one configuration is accepted at most, and none once the pool has been given
  away; all who get the pool get the same one, of the size that was configured.
-/

namespace BlockTensor.GlobalPool

/-- A call on the process-wide pool. -/
inductive Call
  | configure (threads : Nat)
  | apply (config : EngineConfig)
  | acquire (host : Host)

/-- The size that a call wants the pool to have. -/
def Call.size? : Call → Option Nat
  | configure n => some n
  | apply c => some c.threads
  | acquire _ => none

/-- Make a call, which gives the pool if it asks for it. A pool that it starts is number
`serial`. -/
def Call.perform (serial : Nat) : Call → Update GlobalPool (Option PoolHandle)
  | configure n => do
    GlobalPool.configure n
    return none
  | apply c => do
    c.apply
    return none
  | acquire host => do
    return some (← GlobalPool.acquire (PoolHandle.start host serial))

/-! ## One call -/

/-- What a call does: its result, and the state before and after it. -/
inductive Step (serial : Nat) : Call → GlobalPool → Outcome (Option PoolHandle) → GlobalPool → Prop
  | refuse {c s} (f : Fault) : Step serial c s (.error f) s
  | configure {c n} : c.size? = some n → Step serial c (pending none) (.ok none) (pending (some n))
  | start {host threads pool} : Pool.start host (threads.getD 0) = .ok pool →
      Step serial (.acquire host) (pending threads) (.ok (some ⟨serial, pool⟩))
        (started ⟨serial, pool⟩)
  | share {host h} : Step serial (.acquire host) (started h) (.ok (some h)) (started h)

theorem step_configure {serial n : Nat} {c : Call} (hc : c.size? = some n) (s : GlobalPool) :
    let u : Update GlobalPool (Option PoolHandle) := do
      GlobalPool.configure n
      return none
    Step serial c s (u.exec s).1 (u.exec s).2 := by
  match s with
  | pending none => exact .configure hc
  | pending (some _) | started _ => exact .refuse _

/-- A size is accepted where there is none. -/
theorem exec_configure_iff {serial n : Nat} {c : Call} (hc : c.size? = some n) {s : GlobalPool} :
    ((c.perform serial).exec s).1 = .ok none ↔ s = pending none := by
  cases c with
  | acquire => cases hc
  | configure | apply =>
    match s with
    | pending none => exact iff_of_true rfl rfl
    | pending (some _) | started _ => exact iff_of_false nofun nofun

/-- Where the pool has not been started, it is started or nothing happens. -/
theorem exec_acquire_pending (serial : Nat) (host : Host) (threads : Option Nat) :
    ((Call.acquire host).perform serial).exec (pending threads) =
      match Pool.start host (threads.getD 0) with
      | .ok pool => (.ok (some ⟨serial, pool⟩), started ⟨serial, pool⟩)
      | .error f => (.error f, pending threads) := by
  simp only [Call.perform, acquire, PoolHandle.start, Update.exec, bind, EStateM.bind]
  cases Pool.start host (threads.getD 0) <;> rfl

theorem step_acquire (serial : Nat) (host : Host) (s : GlobalPool) :
    let r := ((Call.acquire host).perform serial).exec s
    Step serial (.acquire host) s r.1 r.2 := by
  cases s with
  | started h => exact .share
  | pending threads =>
    rw [exec_acquire_pending]
    cases h : Pool.start host (threads.getD 0) with
    | ok pool => exact .start h
    | error f => exact .refuse f

theorem step_perform (serial : Nat) (c : Call) (s : GlobalPool) :
    let r := (c.perform serial).exec s
    Step serial c s r.1 r.2 := by
  cases c with
  | configure n => exact step_configure rfl s
  | apply c => exact step_configure rfl s
  | acquire host => exact step_acquire serial host s

/-- A call that fails changes nothing. -/
theorem state_of_refused {serial : Nat} {c : Call} {s s' : GlobalPool} {f : Fault}
    (h : (c.perform serial).exec s = (.error f, s')) : s' = s := by
  have step := step_perform serial c s
  rw [h] at step
  cases step
  rfl

/-- A pool that has been started stays. -/
theorem Step.of_started {serial : Nat} {c : Call} {p : PoolHandle}
    {result : Outcome (Option PoolHandle)} {s : GlobalPool}
    (h : Step serial c (GlobalPool.started p) result s) : s = GlobalPool.started p := by
  cases h with
  | refuse | share => rfl

/-! ## Histories -/

/-- A call, and what it returned. -/
structure Entry where
  call : Call
  result : Outcome (Option PoolHandle)

namespace Entry

/-- The size that a call has given the pool. -/
def configured? : Entry → Option Nat
  | ⟨c, .ok _⟩ => c.size?
  | ⟨_, .error _⟩ => none

/-- The pool that a call has given away. -/
def given? : Entry → Option PoolHandle
  | ⟨_, .ok given⟩ => given
  | ⟨_, .error _⟩ => none

end Entry

/-- The calls so far, the first one first, and the state that they have led to. -/
structure History where
  log : List Entry
  state : GlobalPool

/-- One more call. The pool it starts is numbered by its place among the calls. -/
def History.call (h : History) (c : Call) : History :=
  let (result, state) := (c.perform h.log.length).exec h.state
  ⟨h.log ++ [⟨c, result⟩], state⟩

/-- The history of a sequence of calls. -/
def history (calls : List Call) : History := calls.foldl History.call ⟨[], initial⟩

/-- The sizes that were accepted. -/
def configured (log : List Entry) : List Nat := log.filterMap Entry.configured?

/-- The pools that were given away. -/
def given (log : List Entry) : List PoolHandle := log.filterMap Entry.given?

section

variable (log : List Entry) (e : Entry)

theorem configured_concat :
    configured (log ++ [e]) = configured log ++ e.configured?.toList := by
  simp only [configured, List.filterMap_append, List.filterMap_cons, List.filterMap_nil]
  cases e.configured? <;> rfl

theorem given_concat : given (log ++ [e]) = given log ++ e.given?.toList := by
  simp only [given, List.filterMap_append, List.filterMap_cons, List.filterMap_nil]
  cases e.given? <;> rfl

variable {e}

theorem configured_concat_none (h : e.configured? = none) :
    configured (log ++ [e]) = configured log := by
  rw [configured_concat, h, Option.toList_none, List.append_nil]

theorem given_concat_none (h : e.given? = none) : given (log ++ [e]) = given log := by
  rw [given_concat, h, Option.toList_none, List.append_nil]

end

/-- Entry `h.serial` started pool `h`, with the size that was configured. -/
def Starts (log : List Entry) (h : PoolHandle) : Prop :=
  ∃ (host : Host) (threads : Option Nat), configured log = threads.toList ∧
    Pool.start host (threads.getD 0) = .ok h.pool ∧
    log[h.serial]? = some ⟨.acquire host, .ok (some h)⟩

theorem Starts.mem_given {log : List Entry} {h : PoolHandle} (hs : Starts log h) :
    h ∈ given log := by
  obtain ⟨_, _, -, -, hentry⟩ := hs
  exact List.mem_filterMap.mpr ⟨_, List.mem_of_getElem? hentry, rfl⟩

/-- What the state says of the calls that led to it. -/
inductive Inv : History → Prop
  | pending {log threads} : configured log = threads.toList → given log = [] →
      Inv ⟨log, pending threads⟩
  | started {log h} : Starts log h → (∀ p ∈ given log, p = h) → Inv ⟨log, started h⟩

theorem inv_initial : Inv ⟨[], initial⟩ := .pending rfl rfl

theorem Starts.concat {log : List Entry} {h : PoolHandle} {e : Entry} (hs : Starts log h)
    (he : e.configured? = none) : Starts (log ++ [e]) h := by
  obtain ⟨host, threads, hthreads, hstart, hentry⟩ := hs
  have hlt : h.serial < log.length := (List.getElem?_eq_some_iff.mp hentry).1
  refine ⟨host, threads, (configured_concat_none log he).trans hthreads, hstart, ?_⟩
  rw [List.getElem?_append_left hlt, hentry]

/-- A call that keeps the state, and gives at most the pool that is in it. -/
theorem Inv.concat {log : List Entry} {s : GlobalPool} {e : Entry} (h : Inv ⟨log, s⟩)
    (hconf : e.configured? = none) (hgiven : ∀ p ∈ e.given?, s = .started p) :
    Inv ⟨log ++ [e], s⟩ := by
  cases h with
  | pending hthreads hnone =>
    have he : e.given? = none :=
      Option.eq_none_iff_forall_not_mem.mpr fun p hp => nomatch hgiven p hp
    exact .pending ((configured_concat_none log hconf).trans hthreads)
      ((given_concat_none log he).trans hnone)
  | started hs hsame =>
    refine .started (hs.concat hconf) fun p hp => ?_
    rw [given_concat, List.mem_append, Option.mem_toList] at hp
    rcases hp with hp | hp
    · exact hsame p hp
    · exact (GlobalPool.started.inj (hgiven p hp)).symm

section

variable {log : List Entry} {s s' : GlobalPool} {c : Call} {result : Outcome (Option PoolHandle)}

theorem Inv.call (h : Inv ⟨log, s⟩) (hstep : Step log.length c s result s') :
    Inv ⟨log ++ [⟨c, result⟩], s'⟩ := by
  cases hstep with
  | refuse f => exact h.concat rfl nofun
  | share => exact h.concat rfl fun p hp => by rw [Option.some.inj hp]
  | configure hc =>
    cases h with
    | pending hthreads hnone =>
      refine .pending ?_ ((given_concat_none log rfl).trans hnone)
      rw [configured_concat, hthreads]
      exact congrArg Option.toList hc
  | @start host threads pool hstart =>
    cases h with
    | pending hthreads hnone =>
      refine .started ⟨host, threads, ?_, hstart, List.getElem?_concat_length⟩ fun p hp => ?_
      · exact (configured_concat_none log rfl).trans hthreads
      · rw [given_concat, hnone] at hp
        exact List.mem_singleton.mp hp

/-- No configuration is accepted once the pool has been given away. -/
def Settled (log : List Entry) : Prop :=
  log.Pairwise fun earlier later => earlier.given? ≠ none → later.configured? = none

theorem Settled.call (hs : Settled log) (h : Inv ⟨log, s⟩)
    (hstep : Step log.length c s result s') : Settled (log ++ [⟨c, result⟩]) := by
  refine List.pairwise_append.mpr ⟨hs, List.pairwise_singleton .., ?_⟩
  intro earlier he later hl hne
  obtain rfl := List.mem_singleton.mp hl
  cases hstep with
  | refuse | start | share => rfl
  | configure =>
    -- the state is still pending, so that nothing has been given away
    cases h with
    | pending _ hnone => exact absurd (List.filterMap_eq_nil_iff.mp hnone earlier he) hne

end

theorem inv_foldl (calls : List Call) {h : History} (hinv : Inv h) (hs : Settled h.log) :
    Inv (calls.foldl History.call h) ∧ Settled (calls.foldl History.call h).log := by
  induction calls generalizing h with
  | nil => exact ⟨hinv, hs⟩
  | cons c calls ih => exact ih (hinv.call (step_perform ..)) (hs.call hinv (step_perform ..))

theorem inv_history (calls : List Call) : Inv (history calls) ∧ Settled (history calls).log :=
  inv_foldl calls inv_initial .nil

/-! ## The life cycle -/

theorem Inv.configured_le {h : History} (hi : Inv h) : (configured h.log).length ≤ 1 := by
  cases hi with
  | pending hthreads => exact hthreads ▸ Option.length_toList_le
  | started hs =>
    obtain ⟨_, _, hthreads, -⟩ := hs
    exact hthreads ▸ Option.length_toList_le

/-- The pool that was given away is the one in the state. -/
theorem Inv.of_given {h : History} (hi : Inv h) {p : PoolHandle} (hp : p ∈ given h.log) :
    Starts h.log p ∧ ∀ q ∈ given h.log, q = p := by
  cases hi with
  | pending _ hnone => exact absurd (hnone ▸ hp) List.not_mem_nil
  | started hs hsame =>
    obtain rfl := hsame p hp
    exact ⟨hs, hsame⟩

/-- The pool in the state is the one that was given away. -/
theorem Inv.of_started {h : History} (hi : Inv h) {p : PoolHandle}
    (hp : h.state = GlobalPool.started p) :
    p ∈ given h.log ∧ ∀ q ∈ given h.log, q = p := by
  cases hi with
  | pending => cases hp
  | started hs hsame =>
    cases hp
    exact ⟨hs.mem_given, hsame⟩

theorem threads_of_start {host : Host} {n : Nat} {p : Pool} (h : Pool.start host n = .ok p) :
    p.threads = if n = 0 then Pool.defaultThreads host.processors else n := by
  unfold Pool.start at h
  dsimp only at h
  split at h
  · cases h
    rfl
  · cases h

/-- A configuration is accepted just if there has been none and the pool has not been given away. -/
theorem Inv.accepts_iff {h : History} (hi : Inv h) {c : Call} {n : Nat} (hc : c.size? = some n) :
    ((c.perform h.log.length).exec h.state).1 = .ok none ↔
      configured h.log = [] ∧ given h.log = [] := by
  rw [exec_configure_iff hc]
  cases hi with
  | @pending log threads hthreads hnone =>
    rw [hthreads, hnone]
    cases threads <;> simp
  | started hs =>
    exact iff_of_false nofun fun hnone => List.not_mem_nil (hnone.2 ▸ hs.mem_given)

/-- The pool is got just if it has been given away or can be started. -/
theorem Inv.gives_iff {h : History} (hi : Inv h) (host : Host) :
    (∃ p, (((Call.acquire host).perform h.log.length).exec h.state).1 = .ok (some p)) ↔
      given h.log ≠ [] ∨ ∃ p, Pool.start host ((configured h.log).head?.getD 0) = .ok p := by
  cases hi with
  | @pending log threads hthreads hnone =>
    have hhead : threads.toList.head? = threads := by cases threads <;> rfl
    rw [exec_acquire_pending, hthreads, hnone, hhead]
    cases Pool.start host (threads.getD 0) <;> simp
  | started hs =>
    exact iff_of_true ⟨_, rfl⟩ (.inl (List.ne_nil_of_mem hs.mem_given))

/-- Whatever is asked of the process-wide pool, in whatever order: one configuration is accepted at
most, and none after the pool has been given away; a call that fails changes nothing; and all pools
given away are the one that one of the calls has started, of the configured size where that is
positive and of the default size of the host otherwise. No more is refused than that: a
configuration is accepted where there has been none and the pool has not been given away, and the
pool is got where it has been given away or the host starts it. -/
theorem history_lifeCycle (calls : List Call) :
    let log := (history calls).log
    let s := (history calls).state
    (configured log).length ≤ 1 ∧
      (log.Pairwise fun earlier later => earlier.given? ≠ none → later.configured? = none) ∧
      (∀ (serial : Nat) (c : Call) (s s' : GlobalPool) (f : Fault),
        (c.perform serial).exec s = (.error f, s') → s' = s) ∧
      (∀ h ∈ given log, (∀ h' ∈ given log, h' = h) ∧
        ∃ host, log[h.serial]? = some ⟨.acquire host, .ok (some h)⟩ ∧
          (∀ n ∈ configured log, 0 < n → h.pool.threads = n) ∧
          ((∀ n ∈ configured log, n = 0) →
            h.pool.threads = Pool.defaultThreads host.processors)) ∧
      (∀ (c : Call) (n : Nat), c.size? = some n →
        (((c.perform log.length).exec s).1 = .ok none ↔ configured log = [] ∧ given log = [])) ∧
      ∀ host, (∃ h, (((Call.acquire host).perform log.length).exec s).1 = .ok (some h)) ↔
        given log ≠ [] ∨ ∃ pool, Pool.start host ((configured log).head?.getD 0) = .ok pool := by
  obtain ⟨hinv, hsettled⟩ := inv_history calls
  refine ⟨hinv.configured_le, hsettled, fun _ _ _ _ _ => state_of_refused, fun h hh => ?_,
    fun c n => hinv.accepts_iff, hinv.gives_iff⟩
  obtain ⟨⟨host, threads, hthreads, hstart, hentry⟩, hsame⟩ := hinv.of_given hh
  refine ⟨hsame, host, hentry, fun n hn hpos => ?_, fun hzero => ?_⟩
  · rw [hthreads, Option.mem_toList] at hn
    obtain rfl := Option.mem_def.mp hn
    rw [threads_of_start hstart, Option.getD_some, if_neg (Nat.ne_of_gt hpos)]
  · have hnone : threads.getD 0 = 0 := by
      cases threads with
      | none => rfl
      | some n => exact hzero n (hthreads ▸ List.mem_singleton.mpr rfl)
    rw [threads_of_start hstart, if_pos hnone]

/-- A host of eight processors that cannot start workers, and one that can. -/
def busyHost : Host := ⟨some 8, fun _ => .error "out of threads"⟩

def idleHost : Host := ⟨some 8, fun _ => .ok .ascending⟩

/-- A start that fails before the size is set, and calls that come too late. -/
def lateCalls : List Call :=
  [.acquire busyHost, .configure 3, .apply .default, .acquire idleHost, .configure 5,
    .acquire busyHost]

theorem history_lifeCycle_lateCalls :
    ∃ h ∈ given (history lateCalls).log, h.pool.threads = 3 ∧
      ∀ h' ∈ given (history lateCalls).log, h' = h := by
  have hgiven : given (history lateCalls).log = List.replicate 2 ⟨3, ⟨3, .ascending⟩⟩ := rfl
  have hconf : configured (history lateCalls).log = [3] := rfl
  have hmem : _ ∈ given (history lateCalls).log := List.mem_of_getElem? (congrArg (·[0]?) hgiven)
  obtain ⟨-, -, -, hpool, -⟩ := history_lifeCycle lateCalls
  obtain ⟨hsame, _, -, hsize, -⟩ := hpool _ hmem
  exact ⟨_, hmem, hsize 3 (hconf ▸ List.mem_cons_self) (by decide), hsame⟩

end BlockTensor.GlobalPool
