import BlockTensor.Proofs.CacheLog
import Mathlib.Data.List.Forall2

/-!
# Caches in use

A `Keeper` is whatever lends tensors and takes them back as a cache does, and a
`Session` is a number of keepers in use. They are used through handles, which
may be cloned, so that several handles lead to one keeper; a loan goes back to
the keeper that it came from, with whatever its holder has left in it.

* `Keeper.step` is one act, `Keeper.run` a sequence of them, and `Keeper.trace`
  what is seen after each one: the tensor that it gave, and of every keeper the
  counters and the contents.
* `Simulates.step`: if the operations of two keepers keep a relation, then so
  does each act of two sessions, and it gives the same in both.
* `Simulates.trace_eq`: such keepers cannot be told apart in any session.
* `Simulates.run`: what the operations keep is true at the end of every session.
  With one keeper on both sides this is an invariant.
-/

namespace BlockTensor

variable {σ τ α : Type}

/-- The operations of a cache, on states `σ`. -/
structure Keeper (σ α : Type) where
  make : Nat → σ
  get : CacheKey → Update σ (Loan α)
  release : Tensor α → σ → σ
  giveBack : Loan α → σ → σ
  clear : σ → σ
  stats : σ → CacheStats
  contents : σ → List (Entry α)

/-- Keepers, the handles that lead to them, and the loans. A loan has its keeper
with it, and is gone when it has ended. -/
structure Session (σ α : Type) where
  keepers : List σ
  handles : List Nat
  loans : List (Option (Nat × Loan α))

/-- What may be done in a session. Handles and loans are named by the order in
which they were made. -/
inductive Act (α : Type)
  /-- Make a keeper, and a handle to it. -/
  | make (capacity : Nat)
  /-- Make another handle to the keeper of a handle. -/
  | clone (handle : Nat)
  | get (handle : Nat) (key : CacheKey)
  | release (handle : Nat) (t : Tensor α)
  | clear (handle : Nat)
  /-- Leave a tensor in a loan, in place of the one in it. -/
  | hold (loan : Nat) (t : Tensor α)
  | giveBack (loan : Nat)
  | detach (loan : Nat)

/-- What is seen after an act. -/
structure Sight (α : Type) where
  result : Option (Outcome (Tensor α))
  stats : List CacheStats
  contents : List (List (Entry α))

namespace Session

/-- Nothing made yet. -/
def start : Session σ α := ⟨[], [], []⟩

/-- The keeper that a handle leads to, and its place. -/
def find (s : Session σ α) (handle : Nat) : Option (Nat × σ) := do
  let place ← s.handles[handle]?
  return (place, ← s.keepers[place]?)

/-- A loan that has not ended. -/
def loan? (s : Session σ α) (loan : Nat) : Option (Nat × Loan α) := s.loans[loan]?.join

/-- Change the keeper at a place. -/
def change (s : Session σ α) (place : Nat) (f : σ → σ) : Session σ α :=
  { s with keepers := s.keepers.modify place f }

/-- Put something in the place of a loan. -/
def setLoan (s : Session σ α) (loan : Nat) (l : Option (Nat × Loan α)) : Session σ α :=
  { s with loans := s.loans.set loan l }

end Session

namespace Keeper

variable (K : Keeper σ α)

/-- An act, and the tensor that it gives. What there is no handle or no loan for
is not done. -/
def step (s : Session σ α) : Act α → Option (Outcome (Tensor α)) × Session σ α
  | .make capacity =>
    (none, { s with
      keepers := s.keepers ++ [K.make capacity]
      handles := s.handles ++ [s.keepers.length] })
  | .clone handle =>
    match s.handles[handle]? with
    | none => (none, s)
    | some place => (none, { s with handles := s.handles ++ [place] })
  | .get handle key =>
    match s.find handle with
    | none => (none, s)
    | some (place, k) =>
      match (K.get key).exec k with
      | (.ok l, k) =>
        (some (.ok l.tensor),
          { s.change place fun _ => k with loans := s.loans ++ [some (place, l)] })
      | (.error f, k) => (some (.error f), s.change place fun _ => k)
  | .release handle t =>
    match s.handles[handle]? with
    | none => (none, s)
    | some place => (none, s.change place (K.release t))
  | .clear handle =>
    match s.handles[handle]? with
    | none => (none, s)
    | some place => (none, s.change place K.clear)
  | .hold loan t =>
    match s.loan? loan with
    | none => (none, s)
    | some (place, _) => (none, s.setLoan loan (some (place, ⟨t⟩)))
  | .giveBack loan =>
    match s.loan? loan with
    | none => (none, s)
    | some (place, l) => (none, (s.change place (K.giveBack l)).setLoan loan none)
  | .detach loan =>
    match s.loan? loan with
    | none => (none, s)
    | some (_, l) => (some (.ok l.detach), s.setLoan loan none)

/-- The session after some acts. -/
def run (s : Session σ α) : List (Act α) → Session σ α
  | [] => s
  | a :: acts => run (K.step s a).2 acts

/-- What is seen after an act that gave a tensor or none. -/
def sight (result : Option (Outcome (Tensor α))) (s : Session σ α) : Sight α :=
  ⟨result, s.keepers.map K.stats, s.keepers.map K.contents⟩

/-- What is seen after each act. -/
def trace (s : Session σ α) : List (Act α) → List (Sight α)
  | [] => []
  | a :: acts => K.sight (K.step s a).1 (K.step s a).2 :: trace (K.step s a).2 acts

end Keeper

/-! ## Keepers that do the same -/

/-- The tensor that an act brings into a session, if it brings one, satisfies
`J`. -/
def Act.Brings (J : Tensor α → Prop) : Act α → Prop
  | .release _ t | .hold _ t => J t
  | _ => True

/-- Related keepers give the same and show the same, and the operations keep them
related. They lend tensors that satisfy `J`, and need be given no others. -/
structure Simulates (A : Keeper σ α) (B : Keeper τ α) (R : σ → τ → Prop)
    (J : Tensor α → Prop) : Prop where
  make : ∀ capacity, R (A.make capacity) (B.make capacity)
  get : ∀ {a b}, R a b → ∀ key, ((A.get key).exec a).1 = ((B.get key).exec b).1 ∧
    R ((A.get key).exec a).2 ((B.get key).exec b).2
  lends : ∀ {a b}, R a b → ∀ {key l}, ((A.get key).exec a).1 = .ok l → J l.tensor
  release : ∀ {a b}, R a b → ∀ {t}, J t → R (A.release t a) (B.release t b)
  giveBack : ∀ {a b}, R a b → ∀ {l}, J l.tensor → R (A.giveBack l a) (B.giveBack l b)
  clear : ∀ {a b}, R a b → R (A.clear a) (B.clear b)
  stats : ∀ {a b}, R a b → A.stats a = B.stats b
  contents : ∀ {a b}, R a b → A.contents a = B.contents b

/-- Sessions with the same handles and loans, and related keepers. -/
structure Session.Matches (R : σ → τ → Prop) (J : Tensor α → Prop) (s : Session σ α)
    (t : Session τ α) : Prop where
  keepers : List.Forall₂ R s.keepers t.keepers
  handles : s.handles = t.handles
  loans : s.loans = t.loans
  lent : ∀ {place l}, some (place, l) ∈ s.loans → J l.tensor

section

variable {R : σ → τ → Prop}

theorem forall₂_modify {xs : List σ} {ys : List τ} (h : List.Forall₂ R xs ys) {f : σ → σ}
    {g : τ → τ} (hfg : ∀ {x y}, R x y → R (f x) (g y)) (i : Nat) :
    List.Forall₂ R (xs.modify i f) (ys.modify i g) := by
  induction h generalizing i with
  | nil => simp
  | cons hxy h ih =>
    cases i with
    | zero => exact .cons (hfg hxy) h
    | succ i => exact .cons hxy (ih i)

theorem forall₂_getElem? {xs : List σ} {ys : List τ} (h : List.Forall₂ R xs ys) (i : Nat) :
    (xs[i]? = none ∧ ys[i]? = none) ∨ ∃ x y, xs[i]? = some x ∧ ys[i]? = some y ∧ R x y := by
  induction h generalizing i with
  | nil => exact .inl ⟨rfl, rfl⟩
  | cons hxy h ih =>
    cases i with
    | zero => exact .inr ⟨_, _, rfl, rfl, hxy⟩
    | succ i => exact ih i

theorem map_eq_of_forall₂ {δ : Type} {xs : List σ} {ys : List τ} (h : List.Forall₂ R xs ys)
    {f : σ → δ} {g : τ → δ} (hfg : ∀ {x y}, R x y → f x = g y) : xs.map f = ys.map g := by
  induction h with
  | nil => rfl
  | cons hxy _ ih => rw [List.map_cons, List.map_cons, hfg hxy, ih]

end

variable {R : σ → τ → Prop} {J : Tensor α → Prop}

namespace Session.Matches

variable {s : Session σ α} {t : Session τ α}

theorem start : (start : Session σ α).Matches R J (Session.start : Session τ α) :=
  ⟨.nil, rfl, rfl, nofun⟩

theorem change (h : s.Matches R J t) {f : σ → σ} {g : τ → τ}
    (hfg : ∀ {x y}, R x y → R (f x) (g y)) (place : Nat) :
    (s.change place f).Matches R J (t.change place g) :=
  ⟨forall₂_modify h.keepers hfg place, h.handles, h.loans, h.lent⟩

theorem lend (h : s.Matches R J t) (place : Nat) {l : Loan α} (hl : J l.tensor) :
    Matches R J { s with loans := s.loans ++ [some (place, l)] }
      { t with loans := t.loans ++ [some (place, l)] } where
  keepers := h.keepers
  handles := h.handles
  loans := congrArg (· ++ [some (place, l)]) h.loans
  lent hm := by
    rcases List.mem_append.mp hm with hm | hm
    · exact h.lent hm
    · obtain ⟨-, rfl⟩ := Prod.mk.inj (Option.some.inj (List.mem_singleton.mp hm))
      exact hl

theorem setLoan (h : s.Matches R J t) (loan : Nat) {new : Option (Nat × Loan α)}
    (hnew : ∀ place l, new = some (place, l) → J l.tensor) :
    (s.setLoan loan new).Matches R J (t.setLoan loan new) where
  keepers := h.keepers
  handles := h.handles
  loans := congrArg (·.set loan new) h.loans
  lent hm := by
    rcases List.mem_or_eq_of_mem_set hm with hm | hm
    · exact h.lent hm
    · exact hnew _ _ hm.symm

theorem loan? (h : s.Matches R J t) (loan : Nat) : s.loan? loan = t.loan? loan := by
  rw [Session.loan?, h.loans, Session.loan?]

theorem lent_loan? (h : s.Matches R J t) {loan place : Nat} {l : Loan α}
    (hl : t.loan? loan = some (place, l)) : J l.tensor := by
  rw [← h.loan?, Session.loan?, Option.join_eq_some_iff] at hl
  exact h.lent (List.mem_of_getElem? hl)

/-- A handle leads to related keepers at one place, or to none. -/
theorem find (h : s.Matches R J t) (handle : Nat) :
    (s.find handle = none ∧ t.find handle = none) ∨
      ∃ place a b, s.find handle = some (place, a) ∧ t.find handle = some (place, b) ∧ R a b := by
  unfold Session.find
  rw [h.handles]
  cases t.handles[handle]? with
  | none => exact .inl ⟨rfl, rfl⟩
  | some place =>
    rcases forall₂_getElem? h.keepers place with ⟨ha, hb⟩ | ⟨a, b, ha, hb, hab⟩
    · exact .inl ⟨by simp [ha], by simp [hb]⟩
    · exact .inr ⟨place, a, b, by simp [ha], by simp [hb], hab⟩

end Session.Matches

namespace Simulates

variable {A : Keeper σ α} {B : Keeper τ α} {s : Session σ α} {t : Session τ α}

/-- What is lent through a handle is lent in both sessions. -/
theorem step_get (h : Simulates A B R J) (hst : s.Matches R J t) (handle : Nat) (key : CacheKey) :
    (A.step s (.get handle key)).1 = (B.step t (.get handle key)).1 ∧
      (A.step s (.get handle key)).2.Matches R J (B.step t (.get handle key)).2 := by
  rw [Keeper.step, Keeper.step]
  rcases hst.find handle with ⟨hs, ht⟩ | ⟨place, a, b, hs, ht, hab⟩
  · rw [hs, ht]
    exact ⟨rfl, hst⟩
  · obtain ⟨hresult, hleft⟩ := h.get hab key
    have hlends : ∀ l, ((A.get key).exec a).1 = .ok l → J l.tensor := fun _ => h.lends hab
    rw [hs, ht]
    dsimp only
    generalize (A.get key).exec a = x at hresult hleft hlends
    generalize (B.get key).exec b = y at hresult hleft
    obtain ⟨x, a'⟩ := x
    obtain ⟨y, b'⟩ := y
    obtain rfl : x = y := hresult
    have hchange := hst.change (f := fun _ => a') (g := fun _ => b') (fun _ => hleft) place
    cases x with
    | error f => exact ⟨rfl, hchange⟩
    | ok l => exact ⟨rfl, hchange.lend place (hlends l rfl)⟩

/-- An act gives the same in both sessions, and leaves them alike. -/
theorem step (h : Simulates A B R J) (hst : s.Matches R J t) {a : Act α} (ha : a.Brings J) :
    (A.step s a).1 = (B.step t a).1 ∧ (A.step s a).2.Matches R J (B.step t a).2 := by
  cases a with
  | make capacity =>
    refine ⟨rfl, List.rel_append hst.keepers (.cons (h.make capacity) .nil), ?_, hst.loans,
      hst.lent⟩
    show s.handles ++ [s.keepers.length] = t.handles ++ [t.keepers.length]
    rw [hst.handles, hst.keepers.length_eq]
  | clone handle =>
    rw [Keeper.step, Keeper.step, hst.handles]
    cases t.handles[handle]? with
    | none => exact ⟨rfl, hst⟩
    | some place => exact ⟨rfl, hst.keepers, rfl, hst.loans, hst.lent⟩
  | get handle key => exact h.step_get hst handle key
  | release handle u =>
    rw [Keeper.step, Keeper.step, hst.handles]
    cases t.handles[handle]? with
    | none => exact ⟨rfl, hst⟩
    | some place => exact ⟨rfl, hst.change (fun hab => h.release hab ha) place⟩
  | clear handle =>
    rw [Keeper.step, Keeper.step, hst.handles]
    cases t.handles[handle]? with
    | none => exact ⟨rfl, hst⟩
    | some place => exact ⟨rfl, hst.change h.clear place⟩
  | hold loan u =>
    rw [Keeper.step, Keeper.step, hst.loan? loan]
    cases t.loan? loan with
    | none => exact ⟨rfl, hst⟩
    | some l => exact ⟨rfl, hst.setLoan loan fun _ _ he => by cases he; exact ha⟩
  | giveBack loan =>
    rw [Keeper.step, Keeper.step, hst.loan? loan]
    cases hl : t.loan? loan with
    | none => exact ⟨rfl, hst⟩
    | some l =>
      have hback := hst.change (fun hab => h.giveBack hab (hst.lent_loan? hl)) l.1
      exact ⟨rfl, hback.setLoan loan nofun⟩
  | detach loan =>
    rw [Keeper.step, Keeper.step, hst.loan? loan]
    cases t.loan? loan with
    | none => exact ⟨rfl, hst⟩
    | some l => exact ⟨rfl, hst.setLoan loan nofun⟩

/-- What the operations keep holds at the end of a session. -/
theorem run (h : Simulates A B R J) (hst : s.Matches R J t) {acts : List (Act α)}
    (hacts : ∀ a ∈ acts, a.Brings J) : (A.run s acts).Matches R J (B.run t acts) := by
  induction acts generalizing s t with
  | nil => exact hst
  | cons a acts ih =>
    obtain ⟨ha, hacts⟩ := List.forall_mem_cons.mp hacts
    exact ih (h.step hst ha).2 hacts

/-- Nothing in a session tells the keepers apart. -/
theorem trace_eq (h : Simulates A B R J) (hst : s.Matches R J t) {acts : List (Act α)}
    (hacts : ∀ a ∈ acts, a.Brings J) : A.trace s acts = B.trace t acts := by
  induction acts generalizing s t with
  | nil => rfl
  | cons a acts ih =>
    obtain ⟨ha, hacts⟩ := List.forall_mem_cons.mp hacts
    obtain ⟨hresult, hnext⟩ := h.step hst ha
    rw [Keeper.trace, Keeper.trace, ih hnext hacts, hresult, Keeper.sight, Keeper.sight,
      map_eq_of_forall₂ hnext.keepers h.stats, map_eq_of_forall₂ hnext.keepers h.contents]

end Simulates

end BlockTensor
