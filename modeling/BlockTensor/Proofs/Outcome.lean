import BlockTensor.Elements.Basic

/-!
# Reasoning about outcomes

An operation is a chain of checks and reads, so what it gives is described one
bind at a time:

* `Outcome.bind_eq_ok` takes a chain that gave a value apart.
* `Outcome.Ensures x Q` says that `x` does not abort and that its value, if it
  has one, satisfies `Q`; `Ensures.bind` composes it.
* `Update.bind_ok`, `Update.bind_ok_iff` and `Update.bind_error_iff` do the same
  for chains of updates.
* The lemmas `check_of_lt`, `checkRange_of_le` and `checkAligned_of_mod` say when
  a check passes, and `checkRange_eq_ok` and `checkAligned_eq_ok` what has passed.
-/

namespace BlockTensor

namespace Outcome

variable {β γ : Type}

@[simp] theorem ok_bind (v : β) (f : β → Outcome γ) : (Except.ok v >>= f) = f v := rfl

@[simp] theorem pure_eq_ok (v : β) : (pure v : Outcome β) = .ok v := rfl

@[simp] theorem fail_ne_ok (e : TensorError) (v : β) : (fail e : Outcome β) ≠ .ok v := nofun

@[simp] theorem stop_ne_ok (a : Abort) (v : β) : (stop a : Outcome β) ≠ .ok v := nofun

theorem bind_eq_ok {x : Outcome β} {f : β → Outcome γ} {w : γ} :
    (x >>= f) = .ok w ↔ ∃ v, x = .ok v ∧ f v = .ok w := by
  cases x with
  | ok v => simp
  | error e => exact ⟨nofun, fun ⟨v, h, _⟩ => nomatch h⟩

/-- `x` does not abort, and its value satisfies `Q`. -/
def Ensures (x : Outcome β) (Q : β → Prop) : Prop :=
  match x with
  | .ok v => Q v
  | .error (.error _) => True
  | .error (.abort _) => False

theorem Ensures.reports {x : Outcome β} {Q : β → Prop} (h : Ensures x Q) : Reports x := by
  rcases x with (e | a) | v
  · trivial
  · exact h
  · trivial

theorem Reports.ensures {x : Outcome β} {Q : β → Prop} (h : Reports x)
    (hx : ∀ v, x = .ok v → Q v) : Ensures x Q := by
  rcases x with (e | a) | v
  · trivial
  · exact h
  · exact hx v rfl

theorem Ensures.of_ok {x : Outcome β} {Q : β → Prop} {v : β} (h : Ensures x Q) (hx : x = .ok v) :
    Q v := by
  subst hx
  exact h

theorem Ensures.mono {x : Outcome β} {Q R : β → Prop} (h : Ensures x Q) (hQ : ∀ v, Q v → R v) :
    Ensures x R := by
  rcases x with (e | a) | v
  · trivial
  · exact h
  · exact hQ v h

theorem Ensures.bind {x : Outcome β} {f : β → Outcome γ} {Q : β → Prop} {R : γ → Prop}
    (h : Ensures x Q) (hf : ∀ v, x = .ok v → Q v → Ensures (f v) R) : Ensures (x >>= f) R := by
  rcases x with (e | a) | v
  · trivial
  · exact h
  · exact hf v rfl h

theorem ensures_fail (e : TensorError) (Q : β → Prop) : Ensures (fail e) Q := trivial

theorem ensures_ok {v : β} {Q : β → Prop} (h : Q v) : Ensures (.ok v) Q := h

end Outcome

open Outcome

namespace Word

theorem check_of_lt {n : Nat} (h : n < bound) : check n = .ok n := if_pos h

theorem add_of_lt {a b : Nat} (h : a + b < bound) : add a b = .ok (a + b) := check_of_lt h

theorem mul_of_lt {a b : Nat} (h : a * b < bound) : mul a b = .ok (a * b) := check_of_lt h

theorem check_of_le {n : Nat} (h : bound ≤ n) : check n = .stop .overflow :=
  if_neg (Nat.not_lt.mpr h)

theorem add_of_le {a b : Nat} (h : bound ≤ a + b) : add a b = .stop .overflow := check_of_le h

theorem mul_of_le {a b : Nat} (h : bound ≤ a * b) : mul a b = .stop .overflow := check_of_le h

end Word

theorem checkRange_of_le {start len held : Nat} (h : start + len ≤ held) (hb : held < Word.bound) :
    checkRange start len held = .ok () := by
  rw [checkRange, Word.add_of_lt (by omega), ok_bind, if_pos h]
  rfl

theorem checkRange_eq_ok {start len held : Nat} {u : Unit}
    (h : checkRange start len held = .ok u) : start + len ≤ held ∧ start + len < Word.bound := by
  obtain ⟨stop, hs, h⟩ := bind_eq_ok.mp h
  obtain ⟨hb, rfl⟩ := Word.check_eq_ok.mp hs
  split at h
  · exact ⟨‹_›, hb⟩
  · exact absurd h (stop_ne_ok _ _)

/-- A range lies inside, or its check aborts. -/
theorem checkRange_cases (start len held : Nat) :
    start + len ≤ held ∧ checkRange start len held = .ok () ∨
      ∃ a, checkRange start len held = .stop a := by
  unfold checkRange Word.add Word.check
  split
  · rw [ok_bind]
    split
    · exact .inl ⟨‹_›, rfl⟩
    · exact .inr ⟨_, rfl⟩
  · exact .inr ⟨_, rfl⟩

theorem checkAligned_of_mod {offset : Nat} (h : offset % blockSize = 0) :
    checkAligned offset = .ok () := if_pos h

theorem checkAligned_eq_ok {offset : Nat} {u : Unit} (h : checkAligned offset = .ok u) :
    offset % blockSize = 0 := by
  unfold checkAligned at h
  split at h
  · assumption
  · exact absurd h (fail_ne_ok _ _)

namespace Update

variable {β : Type}

theorem bind_ok {σ γ : Type} {u : Update σ β} {k : β → Update σ γ} {s s' : σ} {v : β}
    (h : u s = .ok v s') : (u >>= k) s = k v s' := by
  simp only [bind, EStateM.bind, h]

theorem bind_ok_iff {σ γ : Type} {u : Update σ β} {k : β → Update σ γ} {s s' : σ} {w : γ} :
    (u >>= k) s = .ok w s' ↔ ∃ v s₁, u s = .ok v s₁ ∧ k v s₁ = .ok w s' := by
  simp only [bind, EStateM.bind]
  cases u s <;> simp [and_assoc]

theorem bind_error_iff {σ γ : Type} {u : Update σ β} {k : β → Update σ γ} {s s' : σ}
    {fault : Fault} : (u >>= k) s = .error fault s' ↔
      u s = .error fault s' ∨ ∃ v s₁, u s = .ok v s₁ ∧ k v s₁ = .error fault s' := by
  simp only [bind, EStateM.bind]
  cases u s <;> simp [and_assoc]

end Update

end BlockTensor
