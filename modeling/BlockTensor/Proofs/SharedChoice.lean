import BlockTensor.Select

/-!
# A choice that callers share

Any number of callers want one choice to be made and get what it is. Each reads the cell, takes
the lock, reads again and makes the choice only if the cell is still empty; the steps of different
callers come in any order, and any choice may fail.

* `Run choices s`: the steps so far have led to `s`, and `choices` are the choices that were made
  on the way, the last one first.
* `Point.Sound` is what a caller may rely on at a point, and `Inv` that all of them may, that the
  holder of the lock is the caller that believes so, and what cell and choices say of one another.
  `Inv.move` and `Inv.choose` are its steps, `Run.inv` the whole run.
* `Run.selects_once`: no choice is made after one that has succeeded. What the callers get is this
  one or their own failure, and a failure leaves everything as it was for the next.
-/

namespace BlockTensor.Once

variable {β : Type}

section

variable (s : State β) (i : Nat) (p : Point β)

@[simp] theorem goto_cell : (s.goto i p).cell = s.cell := rfl

@[simp] theorem goto_lock : (s.goto i p).lock = s.lock := rfl

@[simp] theorem goto_points_self : (s.goto i p).points i = p := if_pos rfl

theorem goto_points_of_ne {j : Nat} (h : j ≠ i) : (s.goto i p).points j = s.points j := if_neg h

end

theorem result?_eq_some {s : State β} {i : Nat} {r : Outcome β} :
    s.result? i = some r ↔ s.points i = .done r := by
  unfold State.result?
  cases s.points i <;> simp

/-- The steps that have led from the initial state to another, whoever took them, and the choices
made on the way. -/
inductive Run : List (Nat × Outcome β) → State β → Prop
  | start : Run [] initial
  /-- A step that is not a choice. -/
  | move {choices s s'} {i : Nat} {choice : Outcome β} : Run choices s →
      s.points i ≠ .choosing → step s i choice = some s' → Run choices s'
  | choose {choices s s'} {i : Nat} {choice : Outcome β} : Run choices s →
      s.points i = .choosing → step s i choice = some s' → Run ((i, choice) :: choices) s'

/-! ## What callers rely on -/

/-- No choice has succeeded. -/
def Failed (choices : List (Nat × Outcome β)) : Prop := ∀ c ∈ choices, ∃ f, c.2 = .error f

namespace Point

/-- Whether a caller at a point holds the lock. -/
def holds : Point β → Bool
  | rereading | choosing | storing _ | releasing _ => true
  | start | locking | done _ => false

/-- What is known of the choices and the cell where caller `i` is. -/
def Sound (choices : List (Nat × Outcome β)) (cell : Option β) (i : Nat) : Point β → Prop
  | start | locking | rereading => True
  | choosing => cell = none ∧ Failed choices
  | storing b => cell = none ∧ ∃ earlier, choices = (i, .ok b) :: earlier ∧ Failed earlier
  | releasing (.ok b) | done (.ok b) => cell = some b
  | releasing (.error f) => cell = none ∧ (i, .error f) ∈ choices
  | done (.error f) => (i, .error f) ∈ choices

/-- Without the lock, only what stays true is known. -/
theorem Sound.mono {choices choices' : List (Nat × Outcome β)} {cell cell' : Option β} {i : Nat}
    {p : Point β} (h : p.Sound choices cell i) (hp : p.holds = false)
    (hcell : ∀ b, cell = some b → cell' = some b) (hchoices : choices ⊆ choices') :
    p.Sound choices' cell' i := by
  cases p with
  | start | locking => trivial
  | rereading | choosing | storing | releasing => cases hp
  | done r =>
    cases r with
    | ok b => exact hcell b h
    | error f => exact hchoices h

end Point

/-- The invariant of all runs. -/
structure Inv (choices : List (Nat × Outcome β)) (s : State β) : Prop where
  sound : ∀ i, (s.points i).Sound choices s.cell i
  holder : ∀ i, (s.points i).holds = true ↔ s.lock = some i
  decided : ∀ b, s.cell = some b →
    ∃ i earlier, choices = (i, .ok b) :: earlier ∧ Failed earlier
  undecided : s.cell = none → Failed choices ∨ ∃ i b, s.points i = .storing b
  failed : ∀ i f, (i, .error f) ∈ choices →
    s.points i = .releasing (.error f) ∨ s.points i = .done (.error f)

theorem inv_initial : Inv [] (initial : State β) where
  sound _ := trivial
  holder _ := ⟨nofun, nofun⟩
  decided := nofun
  undecided _ := .inl nofun
  failed := nofun

/-! ## The lock -/

section

variable {s : State β} {i : Nat} {p : Point β}
  (h : ∀ j, (s.points j).holds = true ↔ s.lock = some j)

include h

theorem not_holds_of_ne (hi : (s.points i).holds = true) {j : Nat} (hne : j ≠ i) :
    (s.points j).holds = false := by
  rw [← Bool.not_eq_true, h j, (h i).mp hi]
  exact fun he => hne (Option.some.inj he).symm

theorem holder_keep (hp : p.holds = (s.points i).holds) (j : Nat) :
    ((s.goto i p).points j).holds = true ↔ s.lock = some j := by
  by_cases hj : j = i
  · subst hj
    rw [goto_points_self, hp, h j]
  · rw [goto_points_of_ne _ _ _ hj, h j]

theorem holder_take (hfree : s.lock = none) (hp : p.holds = true) (j : Nat) :
    ((s.goto i p).points j).holds = true ↔ some i = some j := by
  by_cases hj : j = i
  · subst hj
    rw [goto_points_self]
    exact iff_of_true hp rfl
  · rw [goto_points_of_ne _ _ _ hj, h j, hfree]
    exact iff_of_false nofun fun he => hj (Option.some.inj he).symm

theorem holder_release (hi : (s.points i).holds = true) (hp : p.holds = false) (j : Nat) :
    ((s.goto i p).points j).holds = true ↔ none = some j := by
  refine iff_of_false ?_ nofun
  by_cases hj : j = i
  · subst hj
    rw [goto_points_self, hp]
    exact Bool.false_ne_true
  · rw [goto_points_of_ne _ _ _ hj, not_holds_of_ne h hi hj]
    exact Bool.false_ne_true

end

/-! ## Steps -/

namespace Inv

variable {choices : List (Nat × Outcome β)} {s s' : State β} {i : Nat} {choice : Outcome β}

/-- What the caller at a point knows. -/
theorem sound_at (h : Inv choices s) {p : Point β} (hp : s.points i = p) :
    p.Sound choices s.cell i := by
  rw [← hp]
  exact h.sound i

/-- A caller may change its point and the lock, if it knows at the new point what it has to, and
has neither a choice in hand nor a failure that it does not return. -/
theorem goto (h : Inv choices s) {lock : Option Nat} {p : Point β}
    (hholder : ∀ j, ((s.goto i p).points j).holds = true ↔ lock = some j)
    (hsound : p.Sound choices s.cell i) (hstoring : ∀ b, s.points i ≠ .storing b)
    (hfailed : ∀ f, s.points i = .releasing (.error f) ∨ s.points i = .done (.error f) →
      p = .done (.error f)) :
    Inv choices ({ s with lock }.goto i p) where
  sound j := by
    by_cases hj : j = i
    · subst hj
      rwa [goto_points_self]
    · rw [goto_points_of_ne _ _ _ hj]
      exact h.sound j
  holder := hholder
  decided := h.decided
  undecided hcell := by
    rcases h.undecided hcell with hnone | ⟨j, b, hj⟩
    · exact .inl hnone
    · have hne : j ≠ i := fun he => hstoring b (he ▸ hj)
      exact .inr ⟨j, b, (goto_points_of_ne _ _ _ hne).trans hj⟩
  failed j f hmem := by
    by_cases hj : j = i
    · subst hj
      rw [goto_points_self]
      exact .inr (hfailed f (h.failed j f hmem))
    · rw [goto_points_of_ne _ _ _ hj]
      exact h.failed j f hmem

/-- Nothing has been chosen if the holder of the lock finds the cell empty. -/
theorem failed_of_rereading (h : Inv choices s) (hp : s.points i = .rereading)
    (hcell : s.cell = none) : Failed choices := by
  rcases h.undecided hcell with hfailed | ⟨j, b, hj⟩
  · exact hfailed
  · -- the caller that would be storing its choice would hold the lock as well
    have hi : s.lock = some i := (h.holder i).mp (by rw [hp]; rfl)
    have hlock : s.lock = some j := (h.holder j).mp (by rw [hj]; rfl)
    obtain rfl := Option.some.inj (hi.symm.trans hlock)
    rw [hp] at hj
    cases hj

/-- The holder of the lock may fill the cell and make a choice; the others know what they did. -/
theorem sound_goto (h : Inv choices s) (hi : (s.points i).holds = true)
    {choices' : List (Nat × Outcome β)} {cell : Option β} {p : Point β}
    (hcell : ∀ b, s.cell = some b → cell = some b) (hchoices : choices ⊆ choices')
    (hown : p.Sound choices' cell i) (j : Nat) :
    ((s.goto i p).points j).Sound choices' cell j := by
  by_cases hj : j = i
  · subst hj
    rwa [goto_points_self]
  · rw [goto_points_of_ne _ _ _ hj]
    exact (h.sound j).mono (not_holds_of_ne h.holder hi hj) hcell hchoices

/-- Callers that have failed are not moved by the holder of the lock, unless it is one of them. -/
theorem failed_goto (h : Inv choices s) {p : Point β}
    (hi : ∀ f, s.points i ≠ .releasing (.error f) ∧ s.points i ≠ .done (.error f)) {j : Nat}
    {f : Fault} (hmem : (j, .error f) ∈ choices) :
    (s.goto i p).points j = .releasing (.error f) ∨ (s.goto i p).points j = .done (.error f) := by
  have hj := h.failed j f hmem
  have hne : j ≠ i := by
    rintro rfl
    exact hj.elim (hi f).1 (hi f).2
  rwa [goto_points_of_ne _ _ _ hne]

/-- A caller stores what it has chosen. -/
theorem store (h : Inv choices s) {b : β} (hp : s.points i = .storing b) :
    Inv choices ({ s with cell := some b }.goto i (.releasing (.ok b))) := by
  have hi : (s.points i).holds = true := by rw [hp]; rfl
  obtain ⟨hcell, earlier, hchoices, hearlier⟩ := h.sound_at hp
  have hempty : ∀ b', s.cell = some b' → some b = some b' := by
    rw [hcell]
    exact nofun
  refine ⟨h.sound_goto hi hempty (List.Subset.refl _) rfl, holder_keep h.holder (hi ▸ rfl), ?_,
    nofun, fun j f hmem => h.failed_goto (by simp [hp]) hmem⟩
  rintro b' hb'
  obtain rfl := Option.some.inj hb'
  exact ⟨i, earlier, hchoices, hearlier⟩

/-- Every step but a choice keeps the invariant. -/
theorem move (h : Inv choices s) (hp : s.points i ≠ .choosing)
    (hs : step s i choice = some s') : Inv choices s' := by
  have hkeep {p : Point β} (hq : p.holds = (s.points i).holds) := holder_keep h.holder hq
  cases hi : s.points i with
  | start =>
    rw [hi] at hkeep
    simp only [step, hi] at hs
    cases hcell : s.cell with
    | some b =>
      rw [hcell] at hs
      cases hs
      exact h.goto (hkeep rfl) hcell (by simp [hi]) (by simp [hi])
    | none =>
      rw [hcell] at hs
      cases hs
      exact h.goto (hkeep rfl) trivial (by simp [hi]) (by simp [hi])
  | locking =>
    simp only [step, hi] at hs
    cases hlock : s.lock with
    | some j =>
      rw [hlock] at hs
      cases hs
    | none =>
      rw [hlock] at hs
      cases hs
      exact h.goto (holder_take h.holder hlock rfl) trivial (by simp [hi]) (by simp [hi])
  | rereading =>
    rw [hi] at hkeep
    simp only [step, hi] at hs
    cases hcell : s.cell with
    | some b =>
      rw [hcell] at hs
      cases hs
      exact h.goto (hkeep rfl) hcell (by simp [hi]) (by simp [hi])
    | none =>
      rw [hcell] at hs
      cases hs
      exact h.goto (hkeep rfl) ⟨hcell, h.failed_of_rereading hi hcell⟩ (by simp [hi]) (by simp [hi])
  | choosing => exact absurd hi hp
  | storing b =>
    have hcell : s.cell = none := (h.sound_at hi).1
    simp only [step, hi, hcell, Option.getD_none, Option.some.injEq] at hs
    subst hs
    exact h.store hi
  | releasing r =>
    simp only [step, hi, Option.some.injEq] at hs
    subst hs
    have hsound := h.sound_at hi
    have hrelease := holder_release h.holder (p := .done r) (by rw [hi]; rfl) rfl
    cases r with
    | ok b => exact h.goto hrelease hsound (by simp [hi]) (by simp [hi])
    | error f => exact h.goto hrelease hsound.2 (by simp [hi]) (by simp [hi])
  | done r =>
    simp only [step, hi] at hs
    cases hs

/-- A choice keeps the invariant: it is the first that may succeed. -/
theorem choose (h : Inv choices s) (hp : s.points i = .choosing)
    (hs : step s i choice = some s') : Inv ((i, choice) :: choices) s' := by
  have hi : (s.points i).holds = true := by rw [hp]; rfl
  obtain ⟨hcell, hfailed⟩ := h.sound_at hp
  have hempty : ∀ b, s.cell = some b →
      ∃ j earlier, (i, choice) :: choices = (j, .ok b) :: earlier ∧ Failed earlier := by
    rw [hcell]
    exact nofun
  have hothers {p : Point β} := h.sound_goto hi (p := p) (fun _ => id)
    (List.subset_cons_self (i, choice) choices)
  simp only [step, hp] at hs
  cases choice with
  | ok b =>
    cases hs
    refine ⟨hothers ⟨hcell, choices, rfl, hfailed⟩, holder_keep h.holder (hi ▸ rfl), hempty,
      fun _ => .inr ⟨i, b, goto_points_self ..⟩, fun j f hmem => ?_⟩
    rcases List.mem_cons.mp hmem with he | hmem
    · cases he
    · exact h.failed_goto (by simp [hp]) hmem
  | error f =>
    cases hs
    refine ⟨hothers ⟨hcell, List.mem_cons_self⟩, holder_keep h.holder (hi ▸ rfl), hempty,
      fun _ => .inl (List.forall_mem_cons.mpr ⟨⟨f, rfl⟩, hfailed⟩), fun j f' hmem => ?_⟩
    rcases List.mem_cons.mp hmem with he | hmem
    · cases he
      exact .inl (goto_points_self ..)
    · exact h.failed_goto (by simp [hp]) hmem

end Inv

/-! ## Runs -/

section

variable {s s' : State β} {i : Nat} {choice : Outcome β} {r : Outcome β}

theorem run_succ {n : Nat} (hs : step s i choice = some s') :
    run i choice (n + 1) s = run i choice n s' := by
  rw [run, hs]

theorem run_done (hp : s.points i = .done r) (n : Nat) : run i choice n s = s := by
  cases n with
  | zero => rfl
  | succ n => simp only [run, step, hp]

end

/-- A choice that is followed by another has failed. -/
theorem Inv.failed_tail {choices : List (Nat × Outcome β)} {s : State β} (h : Inv choices s) :
    Failed choices.tail := by
  cases hcell : s.cell with
  | some b =>
    obtain ⟨i, earlier, rfl, hearlier⟩ := h.decided b hcell
    exact hearlier
  | none =>
    rcases h.undecided hcell with hfailed | ⟨i, b, hp⟩
    · exact fun c hc => hfailed c (List.mem_of_mem_tail hc)
    · obtain ⟨-, earlier, rfl, hearlier⟩ := h.sound_at hp
      exact hearlier

namespace Run

variable {choices : List (Nat × Outcome β)} {s : State β}

theorem inv (h : Run choices s) : Inv choices s := by
  induction h with
  | start => exact inv_initial
  | move _ hp hs ih => exact ih.move hp hs
  | choose _ hp hs ih => exact ih.choose hp hs

/-! A caller that goes on alone, from where it is to its return. -/

section

variable {i : Nat}

theorem release_alone (h : Run choices s) {r : Outcome β} (hp : s.points i = .releasing r)
    (choice : Outcome β) (n : Nat) :
    let s' := run i choice (n + 1) s
    Run choices s' ∧ s'.result? i = some r ∧ s'.cell = s.cell := by
  have hs : step s i choice = some ({ s with lock := none }.goto i (.done r)) := by
    simp only [step, hp]
  rw [run_succ hs, run_done (goto_points_self ..)]
  exact ⟨h.move (by simp [hp]) hs, result?_eq_some.mpr (goto_points_self ..), rfl⟩

theorem store_alone (h : Run choices s) {b : β} (hp : s.points i = .storing b)
    (hcell : s.cell = none) (choice : Outcome β) (n : Nat) :
    let s' := run i choice (n + 2) s
    Run choices s' ∧ s'.result? i = some (.ok b) ∧ s'.cell = some b := by
  have hs : step s i choice = some ({ s with cell := some b }.goto i (.releasing (.ok b))) := by
    simp only [step, hp, hcell, Option.getD_none]
  rw [run_succ hs]
  exact (h.move (by simp [hp]) hs).release_alone (goto_points_self ..) choice n

theorem decide_alone (h : Run choices s) (hp : s.points i = .choosing) (hcell : s.cell = none)
    (choice : Outcome β) (n : Nat) :
    let s' := run i choice (n + 3) s
    Run ((i, choice) :: choices) s' ∧ s'.result? i = some choice ∧ s'.cell = choice.toOption := by
  cases choice with
  | ok b =>
    have hs : step s i (.ok b) = some (s.goto i (.storing b)) := by simp only [step, hp]
    rw [run_succ hs]
    exact (h.choose hp hs).store_alone (goto_points_self ..) hcell (.ok b) n
  | error f =>
    have hs : step s i (.error f) = some (s.goto i (.releasing (.error f))) := by
      simp only [step, hp]
    rw [run_succ hs]
    obtain ⟨hrun, hresult, hkeep⟩ :=
      (h.choose hp hs).release_alone (goto_points_self ..) (.error f) (n + 1)
    exact ⟨hrun, hresult, hkeep.trans hcell⟩

/-- Where nothing is chosen and the lock is free, a caller at the lock may make the choice. -/
theorem choose_alone (h : Run choices s) (hcell : s.cell = none) (hlock : s.lock = none)
    (hp : s.points i = .locking) (choice : Outcome β) (n : Nat) :
    let s' := run i choice (n + 5) s
    Run ((i, choice) :: choices) s' ∧ s'.result? i = some choice ∧ s'.cell = choice.toOption := by
  have htake : step s i choice = some ({ s with lock := some i }.goto i .rereading) := by
    simp only [step, hp, hlock]
  have hreread : step ({ s with lock := some i }.goto i .rereading) i choice =
      some (({ s with lock := some i }.goto i .rereading).goto i .choosing) := by
    simp only [step, goto_points_self, goto_cell, hcell]
  rw [run_succ htake, run_succ hreread]
  exact ((h.move (by simp [hp]) htake).move (by simp) hreread).decide_alone
    (goto_points_self ..) hcell choice n

end

/-- So may every caller that has not returned. -/
theorem choose_next (h : Run choices s) (hcell : s.cell = none) (hlock : s.lock = none) {i : Nat}
    (hi : s.result? i = none) (choice : Outcome β) :
    let s' := run i choice 6 s
    Run ((i, choice) :: choices) s' ∧ s'.result? i = some choice ∧ s'.cell = choice.toOption := by
  have hfree := h.inv.holder i
  rw [hlock] at hfree
  cases hp : s.points i with
  | start =>
    have hs : step s i choice = some (s.goto i .locking) := by simp [step, hp, hcell]
    rw [run_succ hs]
    exact choose_alone (h.move (by simp [hp]) hs) hcell hlock (goto_points_self ..) choice 0
  | locking => exact h.choose_alone hcell hlock hp choice 1
  | rereading | choosing | storing b | releasing r =>
    rw [hp] at hfree
    exact absurd (hfree.mp rfl) nofun
  | done r =>
    rw [result?_eq_some.mpr hp] at hi
    cases hi

/-- Whatever the steps of the callers and their order, and whichever choices fail:
only the last choice made may have succeeded, so that none is made after a success;
a caller that got something got what is in the cell, and this is what the last choice made was;
a caller whose choice fails, and no other, returns the failure, and it does so with its next step,
until when the cell is empty, leaving it so and the lock free;
and while the cell is empty and the lock free, every caller that has not returned may go on to
make its choice, and returns what this is. -/
theorem selects_once (h : Run choices s) :
    Failed choices.tail ∧
    (∀ i b, s.result? i = some (.ok b) → s.cell = some b ∧ ∃ j, choices.head? = some (j, .ok b)) ∧
    (∀ i f, s.result? i = some (.error f) → (i, .error f) ∈ choices) ∧
    (∀ i f, (i, .error f) ∈ choices → s.result? i = some (.error f) ∨
      s.cell = none ∧ ∀ choice, ∃ s', step s i choice = some s' ∧
        s'.result? i = some (.error f) ∧ s'.cell = none ∧ s'.lock = none) ∧
    (s.cell = none → s.lock = none → ∀ i, s.result? i = none → ∀ choice,
      let s' := run i choice 6 s
      Run ((i, choice) :: choices) s' ∧ s'.result? i = some choice ∧
        s'.cell = choice.toOption) := by
  have hinv := h.inv
  refine ⟨?_, fun i b hi => ?_, fun i f hi => ?_, fun i f hmem => ?_,
    fun hcell hlock i hi choice => h.choose_next hcell hlock hi choice⟩
  · exact hinv.failed_tail
  · have hcell : s.cell = some b := hinv.sound_at (result?_eq_some.mp hi)
    obtain ⟨j, earlier, hchoices, -⟩ := hinv.decided b hcell
    exact ⟨hcell, j, by rw [hchoices]; rfl⟩
  · exact hinv.sound_at (result?_eq_some.mp hi)
  · refine (hinv.failed i f hmem).symm.imp result?_eq_some.mpr fun hp => ?_
    have hcell : s.cell = none := (hinv.sound_at hp).1
    refine ⟨hcell, fun choice => ⟨{ s with lock := none }.goto i (.done (.error f)), ?_,
      result?_eq_some.mpr (goto_points_self ..), hcell, rfl⟩⟩
    simp only [step, hp]

end Run

/-- The first of two callers fails, and the second gets what it chooses. -/
theorem selects_once_secondTry :
    let refusal : Outcome Nat := .fail .poolAlreadyStarted
    let s := run 0 refusal 6 initial
    Run [(0, refusal)] s ∧ s.result? 0 = some refusal ∧ s.cell = none ∧
      Run [(1, .ok 7), (0, refusal)] (run 1 (.ok 7) 6 s) ∧
      (run 1 (.ok 7) 6 s).result? 1 = some (.ok 7) ∧ (run 1 (.ok 7) 6 s).cell = some 7 ∧
      Failed [(0, refusal)] := by
  intro refusal s
  obtain ⟨-, -, -, -, hfirst⟩ := Run.selects_once (.start : Run [] (initial : State Nat))
  obtain ⟨hrun, hresult, hcell⟩ := hfirst rfl rfl 0 rfl refusal
  obtain ⟨-, -, -, -, hsecond⟩ := hrun.selects_once
  obtain ⟨hrun', hresult', hcell'⟩ := hsecond rfl rfl 1 rfl (.ok 7)
  obtain ⟨htail, -⟩ := hrun'.selects_once
  exact ⟨hrun, hresult, hcell, hrun', hresult', hcell', htail⟩

end BlockTensor.Once
