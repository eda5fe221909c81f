import Mathlib.Data.List.Perm.Subperm
import BlockTensor.Proofs.Fill

/-!
# Tasks that may fail

Workers take the tasks of a call in any order and run each that they have taken at most once.
Only after a task has failed may another be dropped, but it may also be run. The call succeeds
if no task has failed, and otherwise returns the error of some task that has. `Attempt` is such
a call, and `Progress` what has become of the tasks that have been taken so far.

* `Attempt.callsOnce`: no task is run twice, and after a success each has been.
* `attempt_forM`: a loop that stops at the first failure is an attempt.
* `Attempt.flatMap`: if every task is a loop of its own, the attempt is one at whatever the
  tasks loop over. For a failing loop drops what follows in it.
-/

namespace BlockTensor.Pool

variable {σ ι κ ε : Type}

/-- How a task ended, and what it left. -/
def ended : Option ε → σ → EStateM.Result ε σ Unit
  | none, s => .ok () s
  | some e, s => .error e s

theorem exists_ended (r : EStateM.Result ε σ Unit) : ∃ o s, r = ended o s := by
  cases r with
  | ok v s => exact ⟨none, s, rfl⟩
  | error e s => exact ⟨some e, s, rfl⟩

/-- What workers have done from `s` on with the tasks `ts` that they have taken, the last one
first: which of them they have run and how each ended. A task is run at most once, and it is
dropped only after another has failed. -/
inductive Progress (u : ι → EStateM ε σ Unit) (s : σ) : List ι → List (ι × Option ε) → σ → Prop
  | start : Progress u s [] [] s
  | run {ts calls s₁ s₂} {t : ι} {o : Option ε} : Progress u s ts calls s₁ →
      u t s₁ = ended o s₂ → Progress u s (t :: ts) ((t, o) :: calls) s₂
  | drop {ts calls s₁} {t t' : ι} {e : ε} : Progress u s ts calls s₁ →
      (t', some e) ∈ calls → Progress u s (t :: ts) calls s₁

/-- A success after calls of which none failed, or the error of one that did. -/
def Returned (calls : List (ι × Option ε)) : Option ε → Prop
  | none => ∀ t e, (t, some e) ∉ calls
  | some e => ∃ t, (t, some e) ∈ calls

/-- The tasks `ts`, taken in any order, with the outcome `o` of the whole. -/
structure Attempt (u : ι → EStateM ε σ Unit) (ts : List ι) (s : σ) (calls : List (ι × Option ε))
    (o : Option ε) (s' : σ) : Prop where
  progress : ∃ taken, taken.Perm ts ∧ Progress u s taken calls s'
  returned : Returned calls o

/-- Each of `ts` is called at most once and nothing else is. A success has called all of them
and none has failed, and an error is one that was returned by a call. -/
structure CallsOnce (ts : List ι) (calls : List (ι × Option ε)) (o : Option ε) : Prop where
  once : (calls.map Prod.fst).Subperm ts
  ok : o = none → (calls.map Prod.fst).Perm ts ∧ ∀ t e, (t, some e) ∉ calls
  error : ∀ e, o = some e → ∃ t, (t, some e) ∈ calls

namespace Progress

variable {u : ι → EStateM ε σ Unit} {s s₁ s₂ : σ} {ts ts' : List ι}
  {calls calls' : List (ι × Option ε)}

theorem sublist (h : Progress u s ts calls s₁) : (calls.map Prod.fst).Sublist ts := by
  induction h with
  | start => exact .slnil
  | run h ho ih => exact ih.cons_cons _
  | drop h he ih => exact ih.cons _

/-- Without a failure no task is dropped. -/
theorem map_fst_of_ok (h : Progress u s ts calls s₁) (hok : ∀ t e, (t, some e) ∉ calls) :
    calls.map Prod.fst = ts := by
  induction h with
  | start => rfl
  | run h ho ih =>
    rw [List.map_cons, ih fun t e hmem => hok t e (List.mem_cons_of_mem _ hmem)]
  | drop h he ih => exact absurd he (hok _ _)

theorem append (h : Progress u s ts calls s₁) (h' : Progress u s₁ ts' calls' s₂) :
    Progress u s (ts' ++ ts) (calls' ++ calls) s₂ := by
  induction h' with
  | start => exact h
  | run h' ho ih => exact .run ih ho
  | drop h' he ih => exact .drop ih (List.mem_append_left _ he)

/-- After a failure any tasks may be dropped. -/
theorem drops (h : Progress u s ts calls s₁) {t : ι} {e : ε} (he : (t, some e) ∈ calls)
    (ts' : List ι) : Progress u s (ts' ++ ts) calls s₁ := by
  induction ts' with
  | nil => exact h
  | cons t' ts' ih => exact .drop ih he

end Progress

theorem forM_cons_ended {u : ι → EStateM ε σ Unit} {t : ι} {ts : List ι} {s s₁ : σ}
    {o : Option ε} (h : u t s = ended o s₁) :
    (t :: ts).forM u s = match o with
      | none => ts.forM u s₁
      | some e => .error e s₁ := by
  show (u t >>= fun _ => ts.forM u) s = _
  simp only [bind, EStateM.bind, h]
  cases o <;> rfl

/-- A loop is a worker that takes its tasks one after the other and drops the rest after the
first that fails. -/
theorem progress_forM (u : ι → EStateM ε σ Unit) (ts : List ι) (s : σ) :
    ∃ calls o s', ts.forM u s = ended o s' ∧ Progress u s ts.reverse calls s' ∧
      Returned calls o := by
  induction ts generalizing s with
  | nil => exact ⟨[], none, s, rfl, .start, fun t e => List.not_mem_nil⟩
  | cons t ts ih =>
    obtain ⟨o, s₁, ho⟩ := exists_ended (u t s)
    have hfirst : Progress u s [t] [(t, o)] s₁ := .run .start ho
    rw [forM_cons_ended ho, List.reverse_cons]
    cases o with
    | none =>
      obtain ⟨calls, o, s', hloop, hrest, hreturned⟩ := ih s₁
      refine ⟨calls ++ [(t, none)], o, s', hloop, hfirst.append hrest, ?_⟩
      cases o with
      | none =>
        intro t' e he
        rcases List.mem_append.mp he with he | he
        · exact hreturned t' e he
        · cases List.mem_singleton.mp he
      | some e =>
        obtain ⟨t', he⟩ := hreturned
        exact ⟨t', List.mem_append_left _ he⟩
    | some e =>
      have he : (t, some e) ∈ [(t, some e)] := List.mem_cons_self
      exact ⟨[(t, some e)], some e, s₁, rfl, hfirst.drops he ts.reverse, t, he⟩

theorem ended_inj {o o' : Option ε} {s s' : σ} (h : ended o s = ended o' s') :
    o = o' ∧ s = s' := by
  cases o <;> cases o' <;> cases h <;> exact ⟨rfl, rfl⟩

theorem returned_cons {calls : List (ι × Option ε)} {visits visits' : List (κ × Option ε)}
    {t : ι} {o : Option ε} (hfirst : Returned visits' o)
    (hrest : ∀ o, Returned calls o → Returned visits o) {r : Option ε}
    (h : Returned ((t, o) :: calls) r) : Returned (visits' ++ visits) r := by
  cases r with
  | none =>
    have hcalls : Returned calls none := fun t' e he => h t' e (List.mem_cons_of_mem _ he)
    obtain rfl : o = none := by
      cases o with
      | none => rfl
      | some e => exact absurd List.mem_cons_self (h t e)
    intro i e he
    rcases List.mem_append.mp he with he | he
    · exact hfirst i e he
    · exact hrest none hcalls i e he
  | some e =>
    obtain ⟨t', he⟩ := h
    rcases List.mem_cons.mp he with heq | he
    · obtain ⟨rfl, rfl⟩ := Prod.mk.inj heq
      obtain ⟨i, he⟩ := hfirst
      exact ⟨i, List.mem_append_left _ he⟩
    · obtain ⟨i, he⟩ := hrest (some e) ⟨t', he⟩
      exact ⟨i, List.mem_append_right _ he⟩

/-- Tasks that are loops are runs of what they loop over. -/
theorem Progress.flatMap {u : ι → EStateM ε σ Unit} {f : κ → EStateM ε σ Unit} {g : ι → List κ}
    (hu : ∀ t, u t = (g t).forM f) {s s' : σ} {ts : List ι} {calls : List (ι × Option ε)}
    (h : Progress u s ts calls s') :
    ∃ visits, Progress f s (ts.flatMap fun t => (g t).reverse) visits s' ∧
      ∀ o, Returned calls o → Returned visits o := by
  induction h with
  | start => exact ⟨[], .start, fun o ho => by cases o <;> simp_all [Returned]⟩
  | @run ts calls s₁ s₂ t o h ho ih =>
    obtain ⟨visits, hvisits, hreturned⟩ := ih
    obtain ⟨visits', o', s', hloop, hprogress, hfirst⟩ := progress_forM f (g t) s₁
    obtain ⟨rfl, rfl⟩ := ended_inj ((hu t ▸ ho).symm.trans hloop)
    exact ⟨visits' ++ visits, hvisits.append hprogress, fun r => returned_cons hfirst hreturned⟩
  | @drop ts calls s₁ t t' e h he ih =>
    obtain ⟨visits, hvisits, hreturned⟩ := ih
    obtain ⟨i, hi⟩ := hreturned (some e) ⟨t', he⟩
    exact ⟨visits, hvisits.drops hi _, hreturned⟩

namespace Attempt

variable {u : ι → EStateM ε σ Unit} {ts : List ι} {s s' : σ} {calls : List (ι × Option ε)}
  {o : Option ε}

/-- Each task is run at most once, and no other. -/
theorem subperm (h : Attempt u ts s calls o s') : (calls.map Prod.fst).Subperm ts := by
  obtain ⟨taken, hperm, hprogress⟩ := h.progress
  exact hprogress.sublist.subperm.trans hperm.subperm

/-- A success has run every task. -/
theorem perm_of_ok (h : Attempt u ts s calls none s') : (calls.map Prod.fst).Perm ts := by
  obtain ⟨taken, hperm, hprogress⟩ := h.progress
  rwa [hprogress.map_fst_of_ok h.returned]

theorem callsOnce (h : Attempt u ts s calls o s') : CallsOnce ts calls o where
  once := h.subperm
  ok ho := by
    subst ho
    exact ⟨h.perm_of_ok, h.returned⟩
  error e he := by
    subst he
    exact h.returned

theorem flatMap {f : κ → EStateM ε σ Unit} {g : ι → List κ} (hu : ∀ t, u t = (g t).forM f)
    (h : Attempt u ts s calls o s') : ∃ visits, Attempt f (ts.flatMap g) s visits o s' := by
  obtain ⟨taken, hperm, hprogress⟩ := h.progress
  obtain ⟨visits, hvisits, hreturned⟩ := hprogress.flatMap hu
  exact ⟨visits, ⟨_, hperm.flatMap fun t _ => List.reverse_perm _, hvisits⟩, hreturned o h.returned⟩

end Attempt

/-- A loop over the tasks in any order is an attempt. -/
theorem attempt_forM (u : ι → EStateM ε σ Unit) {ts ts' : List ι} (hperm : ts.Perm ts') (s : σ) :
    ∃ calls o s', ts.forM u s = ended o s' ∧ Attempt u ts' s calls o s' := by
  obtain ⟨calls, o, s', hloop, hprogress, hreturned⟩ := progress_forM u ts s
  exact ⟨calls, o, s', hloop, ⟨_, (List.reverse_perm ts).trans hperm, hprogress⟩, hreturned⟩

end BlockTensor.Pool
