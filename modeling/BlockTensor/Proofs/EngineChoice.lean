import BlockTensor.Proofs.Outcome
import BlockTensor.Proofs.PoolLifeCycle
import BlockTensor.Proofs.SharedChoice

/-!
# The backend of a process

The callers in a process share the choice of its backend, and a choice uses the process-wide pool
twice: its settings size the pool, and the backend is one that works on it. Others use the pool as
well, before, between and after these two calls.

* `exec_choose`: what one choice makes of the state of the pool, if nobody comes between.
* `Run g choices h s`: the steps so far, of the callers and on the pool. Without the pool it is a
  run of the shared choice (`Run.once`), without the callers a history of the pool
  (`Run.history`).
* `Run.serves`: who gets a backend gets the best one for the settings, on the pool that everyone
  else is given.
-/

namespace BlockTensor.Engine

open GlobalPool Update

variable {α : Type} {g : Engine α} {c : EngineConfig}

/-! ## One choice -/

/-- Settings that can be read are applied, and the answer to this does not matter. -/
theorem settle_eq (hc : EngineConfig.ofLookup g.lookup = .ok c) (serial : Nat)
    (s : GlobalPool) :
    g.settle s = .ok c (((Call.apply c).perform serial).exec s).2 := by
  unfold settle
  rw [hc]
  match s with
  | pending none | pending (some _) | started _ => rfl

/-- Without settings the pool is left alone. -/
theorem exec_choose_unreadable {f : Fault} (hf : EngineConfig.ofLookup g.lookup = .error f)
    (serial : Nat) (s : GlobalPool) : (g.choose serial).exec s = (.error f, s) := by
  unfold choose settle
  rw [hf]
  rfl

theorem exec_serve_pending (c : EngineConfig) (serial : Nat) (threads : Option Nat) :
    (g.serve c serial).exec (pending threads) =
      match Pool.start g.host (threads.getD 0) with
      | .ok pool => (.ok (g.backend c pool), started ⟨serial, pool⟩)
      | .error f => (.error f, pending threads) := by
  simp only [serve, acquire, PoolHandle.start, Update.exec, bind, EStateM.bind]
  cases Pool.start g.host (threads.getD 0) <;> rfl

/-- The pool is used as by a call that gets it, and the backend works on the pool that is got. -/
theorem exec_serve (c : EngineConfig) (serial : Nat) (s : GlobalPool) :
    ((g.serve c serial).exec s).2 = (((Call.acquire g.host).perform serial).exec s).2 ∧
      ∀ b, ((g.serve c serial).exec s).1 = .ok b →
        ∃ p, ((g.serve c serial).exec s).2 = started p ∧ b = g.backend c p.pool := by
  cases s with
  | started p =>
    refine ⟨rfl, fun b hb => ⟨p, rfl, ?_⟩⟩
    cases hb
    rfl
  | pending threads =>
    rw [exec_serve_pending, exec_acquire_pending]
    cases Pool.start g.host (threads.getD 0) with
    | error f => exact ⟨rfl, nofun⟩
    | ok pool =>
      refine ⟨rfl, fun b hb => ⟨_, rfl, ?_⟩⟩
      cases hb
      rfl

theorem exec_choose_eq_serve (hc : EngineConfig.ofLookup g.lookup = .ok c)
    (serial other : Nat) (s : GlobalPool) :
    (g.choose serial).exec s =
      (g.serve c serial).exec (((Call.apply c).perform other).exec s).2 := by
  have hchoose : g.choose serial s = g.serve c serial (((Call.apply c).perform other).exec s).2 :=
    bind_ok (settle_eq hc other s)
  rw [Update.exec, hchoose]
  rfl

/-- A choice works on the pool there is, or starts it: of the size that it has been given, and of
the size in the settings if it has been given none, which it then keeps. -/
theorem exec_choose (hc : EngineConfig.ofLookup g.lookup = .ok c) (serial : Nat)
    (s : GlobalPool) :
    (g.choose serial).exec s =
      match s with
      | started p => (.ok (g.backend c p.pool), started p)
      | pending threads =>
        match Pool.start g.host (threads.getD c.threads) with
        | .ok pool => (.ok (g.backend c pool), started ⟨serial, pool⟩)
        | .error f => (.error f, pending (some (threads.getD c.threads))) := by
  rw [exec_choose_eq_serve hc serial serial]
  match s with
  | started _ => rfl
  | pending none | pending (some _) => exact exec_serve_pending ..

/-! ## Runs -/

/-- The steps that callers and others have taken: the choices made, the last one first, the calls
on the pool, and where the callers are. -/
inductive Run (g : Engine α) :
    List (Nat × Outcome (Backend α)) → History → Once.State (Backend α) → Prop
  | start : Run g [] (history []) Once.initial
  /-- A call on the pool, the one that applies the settings of a caller or any other. -/
  | call {choices h s} (c : Call) : Run g choices h s → Run g choices (h.call c) s
  /-- A step of a caller that is not a choice. -/
  | move {choices h s s'} {i : Nat} {choice : Outcome (Backend α)} : Run g choices h s →
      s.points i ≠ .choosing → Once.step s i choice = some s' → Run g choices h s'
  /-- A choice that fails for want of settings. -/
  | refuse {choices h s s'} {i : Nat} {f : Fault} : Run g choices h s →
      s.points i = .choosing → EngineConfig.ofLookup g.lookup = .error f →
      Once.step s i (.error f) = some s' → Run g ((i, .error f) :: choices) h s'
  /-- A choice of a caller whose settings have been applied. -/
  | serve {choices h s s'} {i : Nat} {c : EngineConfig} {choice : Outcome (Backend α)} :
      Run g choices h s → s.points i = .choosing → EngineConfig.ofLookup g.lookup = .ok c →
      (∃ e ∈ h.log, e.call = .apply c) →
      choice = ((g.serve c h.log.length).exec h.state).1 → Once.step s i choice = some s' →
      Run g ((i, choice) :: choices) (h.call (.acquire g.host)) s'

namespace Run

variable {choices : List (Nat × Outcome (Backend α))} {h : History} {s : Once.State (Backend α)}

theorem once (hrun : Run g choices h s) : Once.Run choices s := by
  induction hrun with
  | start => exact .start
  | call _ _ ih => exact ih
  | move _ hp hs ih => exact ih.move hp hs
  | refuse _ hp _ hs ih => exact ih.choose hp hs
  | serve _ hp _ _ _ hs ih => exact ih.choose hp hs

theorem history (hrun : Run g choices h s) : ∃ calls, h = history calls := by
  have hcall {h : History} (c : Call) : (∃ calls, h = GlobalPool.history calls) →
      ∃ calls, h.call c = GlobalPool.history calls := by
    rintro ⟨calls, rfl⟩
    refine ⟨calls ++ [c], ?_⟩
    simp only [GlobalPool.history, List.foldl_append, List.foldl_cons, List.foldl_nil]
  induction hrun with
  | start => exact ⟨[], rfl⟩
  | call c _ ih => exact hcall c ih
  | move _ _ _ ih => exact ih
  | refuse _ _ _ _ ih => exact ih
  | serve _ _ _ _ _ _ ih => exact hcall _ ih

end Run

/-- A pool that has been started stays the one there is. -/
theorem call_started {h : History} {p : PoolHandle} (hp : h.state = started p) (c : Call) :
    (h.call c).state = started p := by
  have hstep : Step h.log.length c h.state _ (h.call c).state := step_perform ..
  rw [hp] at hstep
  exact hstep.of_started

/-- What was chosen is the backend for the settings, on the pool there is. -/
def Chosen (g : Engine α) (h : History) (b : Backend α) : Prop :=
  ∃ c p, EngineConfig.ofLookup g.lookup = .ok c ∧ h.state = started p ∧ b = g.backend c p.pool

theorem Chosen.call {h : History} {b : Backend α} (hb : g.Chosen h b) (c : Call) :
    g.Chosen (h.call c) b := by
  obtain ⟨config, p, hc, hp, hb⟩ := hb
  exact ⟨config, p, hc, call_started hp c, hb⟩

theorem chosen_serve (hc : EngineConfig.ofLookup g.lookup = .ok c) {h : History} {b : Backend α}
    (hb : ((g.serve c h.log.length).exec h.state).1 = .ok b) :
    g.Chosen (h.call (.acquire g.host)) b := by
  obtain ⟨hstate, hbackend⟩ := exec_serve (g := g) c h.log.length h.state
  obtain ⟨p, hp, hb⟩ := hbackend b hb
  exact ⟨c, p, hc, hstate.symm.trans hp, hb⟩

namespace Run

variable {choices : List (Nat × Outcome (Backend α))} {h : History} {s s' : Once.State (Backend α)}
  {i : Nat}

theorem chosen (hrun : Run g choices h s) {b : Backend α} (hb : (i, .ok b) ∈ choices) :
    g.Chosen h b := by
  induction hrun with
  | start => cases hb
  | call c _ ih => exact (ih hb).call c
  | move _ _ _ ih => exact ih hb
  | refuse _ _ _ _ ih =>
    rcases List.mem_cons.mp hb with he | hb
    · cases he
    · exact ih hb
  | serve _ _ hc _ hchoice _ ih =>
    rcases List.mem_cons.mp hb with he | hb
    · cases he
      exact chosen_serve hc hchoice.symm
    · exact (ih hb).call _

/-- Without settings nothing else comes of a choice. -/
theorem refused (hrun : Run g choices h s) {f : Fault}
    (hf : EngineConfig.ofLookup g.lookup = .error f) {r : Outcome (Backend α)}
    (hr : (i, r) ∈ choices) : r = .error f := by
  induction hrun with
  | start => cases hr
  | call _ _ ih | move _ _ _ ih => exact ih hr
  | refuse _ _ hf' _ ih =>
    rcases List.mem_cons.mp hr with he | hr
    · cases he
      exact congrArg Except.error (Except.error.inj (hf'.symm.trans hf))
    · exact ih hr
  | serve _ _ hc => cases hf.symm.trans hc

/-- A caller that nobody comes between makes its choice in one go. -/
theorem choose (hrun : Run g choices h s) (hp : s.points i = .choosing)
    (hc : EngineConfig.ofLookup g.lookup = .ok c) :
    let sized := h.call (.apply c)
    let result := (g.choose sized.log.length).exec h.state
    (sized.call (.acquire g.host)).state = result.2 ∧
      ∀ s', Once.step s i result.1 = some s' →
        Run g ((i, result.1) :: choices) (sized.call (.acquire g.host)) s' := by
  intro sized result
  have hresult : result = (g.serve c sized.log.length).exec sized.state :=
    exec_choose_eq_serve hc sized.log.length h.log.length h.state
  have happlied : ∃ e ∈ sized.log, e.call = .apply c :=
    ⟨_, List.mem_append_right _ (List.mem_singleton_self _), rfl⟩
  refine ⟨?_, fun s' hs => (hrun.call (.apply c)).serve hp hc happlied (by rw [hresult]) hs⟩
  rw [hresult]
  exact (exec_serve c sized.log.length sized.state).1.symm

/-- Whatever callers and others do, in whatever order: the callers that get a backend get the same
one, the one for the settings, and it works on the pool that everyone else is given; where the
settings cannot be read, every caller that returns reports why. -/
theorem serves (hrun : Run g choices h s) :
    (∀ i b, s.result? i = some (.ok b) → s.cell = some b) ∧
    (∀ b, s.cell = some b → ∃ c p, EngineConfig.ofLookup g.lookup = .ok c ∧
      b = g.backend c p.pool ∧ p ∈ given h.log ∧ ∀ p' ∈ given h.log, p' = p) ∧
    ∀ f, EngineConfig.ofLookup g.lookup = .error f →
      s.cell = none ∧ ∀ i r, s.result? i = some r → r = .error f := by
  have hinv := hrun.once.inv
  have hcell (i : Nat) (b : Backend α) (hi : s.result? i = some (.ok b)) : s.cell = some b :=
    hinv.sound_at (Once.result?_eq_some.mp hi)
  have hnone {f : Fault} (hf : EngineConfig.ofLookup g.lookup = .error f) : s.cell = none := by
    refine Option.eq_none_iff_forall_ne_some.mpr fun b hb => ?_
    obtain ⟨i, earlier, rfl, -⟩ := hinv.decided b hb
    cases hrun.refused hf List.mem_cons_self
  refine ⟨hcell, fun b hb => ?_, fun f hf => ⟨hnone hf, fun i r hi => ?_⟩⟩
  · obtain ⟨i, earlier, rfl, -⟩ := hinv.decided b hb
    obtain ⟨c, p, hc, hp, hb⟩ := hrun.chosen List.mem_cons_self
    obtain ⟨calls, rfl⟩ := hrun.history
    obtain ⟨hpool, -⟩ := inv_history calls
    exact ⟨c, p, hc, hb, hpool.of_started hp⟩
  · cases r with
    | ok b => cases (hnone hf).symm.trans (hcell i b hi)
    | error f' => exact hrun.refused hf (hinv.sound_at (Once.result?_eq_some.mp hi))

end Run

end BlockTensor.Engine
