import BlockTensor.Proofs.Allocation
import BlockTensor.Proofs.CacheLog
import BlockTensor.Proofs.ViewChain

/-!
# A cache cannot be seen

A program obtains tensors from a cache and clears each of them at once, makes
others itself, and then writes, copies, reads, gives back, keeps and releases
them in any order; what it does next may depend on all that it has seen so far.
It sees whole tensors, with the codes and scales of their padding.

`Program.run_eq` says that it sees the same with a cache of any capacity: of
what a parked buffer held, nothing is left but its layout, and every parked buffer
has the layout of the zeros that would be made in its place
(`Cache.getCleared_eq`).
-/

namespace BlockTensor

open Outcome Update

variable {α : Type}

/-- Get a tensor, and clear it at once: how that ended, and the tensor. -/
def Cache.getCleared [Scalar α] (key : CacheKey) : Update (Cache α) (Outcome Unit × Tensor α) := do
  let l ← Cache.get key
  return Tensor.clear.exec l.tensor

/-- Write to the part of a tensor at the end of a path. -/
def Tensor.writePart [Scalar α] (path : List Target.Step) (m : Target.Mutation α) :
    Update (Tensor α) Unit := updatePart path m.run

/-! ## Programs -/

/-- What a program has of a tensor. -/
inductive Holding (α : Type)
  /-- A loan of the cache. -/
  | lent (l : Loan α)
  /-- A tensor of its own. -/
  | own (t : Tensor α)
  /-- Nothing any more. -/
  | gone

def Holding.tensor? : Holding α → Option (Tensor α)
  | lent l => some l.tensor
  | own t => some t
  | gone => none

/-- The holding with another tensor in it. -/
def Holding.with (t : Tensor α) : Holding α → Holding α
  | lent _ => lent ⟨t⟩
  | own _ => own t
  | gone => gone

/-- A program's cache, and what it holds in the order in which it came to it. -/
structure World (α : Type) where
  cache : Cache α
  held : List (Holding α)

/-- What a program may do. It names what it holds by position. -/
inductive Op (α : Type)
  /-- Get a tensor from the cache and clear it. -/
  | lend (key : CacheKey)
  | zeros (d : DType) (shape : Shape)
  | new (values : Array α) (shape : Shape)
  | ofValues (d : DType) (shape : Shape) (values : Array α)
  | set (i : Nat) (v : α) (index : List Nat)
  | clear (i : Nat)
  /-- Write to a part. -/
  | write (i : Nat) (path : List Target.Step) (m : Target.Mutation α)
  /-- Copy from a view of another tensor. -/
  | copy (i src : Nat) (steps : List View.Step) (source start len : Nat)
  | read (i : Nat)
  | drop (i : Nat)
  | detach (i : Nat)
  | release (i : Nat)
  /-- Drop what is parked in the cache. -/
  | clearCache

/-- What a program sees of an operation: a fault, or that it is done, and the
tensor if it was read. -/
abbrev Seen (α : Type) := Outcome (Option (Tensor α))

/-- An operation that shows nothing but its faults. -/
def Seen.done (x : Outcome Unit) : Seen α := x.map fun _ => none

namespace World

def start (capacity : Nat) : World α := ⟨.empty capacity, []⟩

/-- The tensor of a holding. -/
def tensor? (w : World α) (i : Nat) : Option (Tensor α) := w.held[i]?.bind Holding.tensor?

/-- Hold a new tensor, if there is one. -/
def keep (w : World α) : Outcome (Tensor α) → Seen α × World α
  | .ok t => (.ok none, { w with held := w.held ++ [.own t] })
  | .error f => (.error f, w)

/-- Update the tensor of a holding. -/
def edit (w : World α) (i : Nat) (u : Update (Tensor α) Unit) : Seen α × World α :=
  match w.tensor? i with
  | none => (.ok none, w)
  | some t =>
    let (x, t) := u.exec t
    (Seen.done x, { w with held := w.held.modify i (.with t) })

variable [Scalar α]

/-- Get a tensor from the cache and clear it. -/
def lend (w : World α) (key : CacheKey) : Seen α × World α :=
  match (Cache.getCleared key).exec w.cache with
  | (.error f, c) => (.error f, { w with cache := c })
  | (.ok (x, t), c) => (Seen.done x, ⟨c, w.held ++ [.lent ⟨t⟩]⟩)

/-- One operation. Values that a tensor is made of are in a buffer themselves. -/
def step (w : World α) : Op α → Seen α × World α
  | .lend key => w.lend key
  | .zeros d shape => w.keep (Tensor.zeros d shape)
  | .new values shape => w.keep do
    checkCapacity (DType.f32.storageBytes values.size)
    Tensor.new values shape
  | .ofValues d shape values => w.keep do
    checkCapacity (DType.f32.storageBytes values.size)
    Tensor.ofValues d shape values
  | .set i v index => w.edit i (Tensor.set v index)
  | .clear i => w.edit i Tensor.clear
  | .write i path m => w.edit i (Tensor.writePart path m)
  | .copy i src steps source start len =>
    match w.tensor? src with
    | none => (.ok none, w)
    | some s =>
      match (do (← s.view).followAll steps) with
      | .error f => (.error f, w)
      | .ok v => w.edit i (Tensor.copyFrom v source start len)
  | .read i => (.ok (w.tensor? i), w)
  | .drop i =>
    match w.held[i]? with
    | some (.lent l) => (.ok none, ⟨l.giveBack w.cache, w.held.set i .gone⟩)
    | _ => (.ok none, { w with held := w.held.set i .gone })
  | .detach i =>
    match w.held[i]? with
    | some (.lent l) => (.ok none, { w with held := w.held.set i (.own l.detach) })
    | _ => (.ok none, w)
  | .release i =>
    match w.tensor? i with
    | none => (.ok none, w)
    | some t => (.ok none, ⟨w.cache.release t, w.held.set i .gone⟩)
  | .clearCache => (.ok none, { w with cache := w.cache.clear })

end World

/-- A program says what to do next, if anything, from what it has seen so far. -/
abbrev Program (α : Type) := List (Seen α) → Option (Op α)

/-- What a program has seen after at most `n` more operations. -/
def Program.run [Scalar α] (p : Program α) : (n : Nat) → World α → List (Seen α) → List (Seen α)
  | 0, _, seen => seen
  | n + 1, w, seen =>
    match p seen with
    | none => seen
    | some op => run p n (w.step op).2 (seen ++ [(w.step op).1])

/-! ## Two caches -/

section

variable [Scalar α]

theorem Tensor.writePart_keeps (path : List Target.Step) (m : Target.Mutation α) :
    (Tensor.writePart path m).Keeps Tensor.outline := Tensor.updatePart_keeps path m.run

theorem Tensor.Allocated.parks {t : Tensor α} (h : t.Allocated) :
    Cache.Parks CacheKey.Backs t := by
  obtain ⟨shape, storage⟩ := t
  obtain ⟨e, rfl, hbacks⟩ := h
  intro elems he
  obtain rfl := Option.some.inj he
  exact hbacks

/-- An update that cannot be told from allocation keeps tensors allocated. -/
theorem Tensor.Allocated.exec {t : Tensor α} (h : t.Allocated) {u : Update (Tensor α) Unit}
    (hu : u.Keeps Tensor.outline) : (u.exec t).2.Allocated := by
  refine h.of_outline ?_
  rw [exec_snd]
  exact hu t

theorem exec_map {σ β γ : Type} (u : Update σ β) (g : β → γ) (s : σ) :
    (do return g (← u) : Update σ γ).exec s = (do return g (← (u.exec s).1), (u.exec s).2) := by
  simp only [exec, bind, EStateM.bind]
  cases u s <;> rfl

/-- A tensor that is lent and cleared is the zeros of its key, wherever it was
found: clearing leaves nothing of a parked buffer but its layout, and that is the
layout of the zeros. -/
theorem Cache.getCleared_eq {c : Cache α} (h : c.Stocked CacheKey.Backs) (key : CacheKey) :
    ((getCleared key).exec c).1 = (do return (.ok (), ← Tensor.zeros key.dtype key.shape)) ∧
      ((getCleared key).exec c).2.Stocked CacheKey.Backs := by
  rw [getCleared, exec_map]
  refine ⟨?_, (h.get key).1⟩
  cases hreuse : c.reuse key with
  | some found =>
    obtain ⟨elems, c'⟩ := found
    obtain ⟨hbacks, -⟩ := h.reuse hreuse
    rw [exec_get_hit hreuse, hbacks.zeros_eq]
    rfl
  | none =>
    rw [exec_get_miss hreuse]
    cases hzeros : (Tensor.zeros key.dtype key.shape : Outcome (Tensor α)) with
    | error f => rfl
    | ok t =>
      obtain ⟨-, -, rfl⟩ := Tensor.zeros_eq_ok hzeros
      show Except.ok ((Except.ok () : Outcome Unit), Tensor.owning _ (Elements.fillZero _)) = _
      rw [Elements.fillZero_eq_zeros rfl]
      rfl

/-- Worlds in which the same is held, allocated as it should be. The caches may
have parked different buffers. -/
structure World.Alike (w w' : World α) : Prop where
  held : w.held = w'.held
  allocated : ∀ h ∈ w.held, ∀ t, h.tensor? = some t → t.Allocated
  left : w.cache.Stocked CacheKey.Backs
  right : w'.cache.Stocked CacheKey.Backs

end

namespace World.Alike

variable [Scalar α] {w w' : World α}

theorem start (capacity capacity' : Nat) :
    (start capacity : World α).Alike (World.start capacity') :=
  ⟨rfl, nofun, .empty _, .empty _⟩

theorem tensor? (h : w.Alike w') (i : Nat) : w.tensor? i = w'.tensor? i := by
  rw [World.tensor?, h.held, World.tensor?]

theorem allocated_tensor? (h : w.Alike w') {i : Nat} {t : Tensor α} (ht : w'.tensor? i = some t) :
    t.Allocated := by
  rw [← h.tensor?] at ht
  obtain ⟨x, hx, ht⟩ := Option.bind_eq_some_iff.mp ht
  exact h.allocated x (List.mem_of_getElem? hx) t ht

/-- One holding is replaced by another with an allocated tensor, or with none. -/
theorem put (h : w.Alike w') {c c' : Cache α} (hc : c.Stocked CacheKey.Backs)
    (hc' : c'.Stocked CacheKey.Backs) (i : Nat) {x : Holding α}
    (hx : ∀ t, x.tensor? = some t → t.Allocated) :
    Alike ⟨c, w'.held.set i x⟩ ⟨c', w'.held.set i x⟩ where
  held := rfl
  allocated y hy t ht := by
    rcases List.mem_or_eq_of_mem_set hy with hy | rfl
    · exact h.allocated y (h.held ▸ hy) t ht
    · exact hx t ht
  left := hc
  right := hc'

/-- One more is held. -/
theorem push (h : w.Alike w') {c c' : Cache α} (hc : c.Stocked CacheKey.Backs)
    (hc' : c'.Stocked CacheKey.Backs) {x : Holding α}
    (hx : ∀ t, x.tensor? = some t → t.Allocated) :
    Alike ⟨c, w.held ++ [x]⟩ ⟨c', w'.held ++ [x]⟩ where
  held := congrArg (· ++ [x]) h.held
  allocated y hy t ht := by
    rcases List.mem_append.mp hy with hy | hy
    · exact h.allocated y hy t ht
    · obtain rfl := List.mem_singleton.mp hy
      exact hx t ht
  left := hc
  right := hc'

theorem keep (h : w.Alike w') {x : Outcome (Tensor α)} (hx : ∀ t, x = .ok t → t.Allocated) :
    (w.keep x).1 = (w'.keep x).1 ∧ (w.keep x).2.Alike (w'.keep x).2 := by
  cases x with
  | error f => exact ⟨rfl, h⟩
  | ok t =>
    refine ⟨rfl, h.push h.left h.right fun u hu => ?_⟩
    obtain rfl := Option.some.inj hu
    exact hx t rfl

/-- The tensor in a holding is replaced by an allocated one. -/
theorem modify (h : w.Alike w') (i : Nat) {t : Tensor α} (ht : t.Allocated) :
    Alike { w with held := w.held.modify i (.with t) }
      { w' with held := w'.held.modify i (.with t) } where
  held := congrArg (·.modify i (.with t)) h.held
  allocated y hy u hu := by
    obtain ⟨j, hj⟩ := List.mem_iff_getElem?.mp hy
    obtain ⟨x, hx, rfl⟩ := Option.map_eq_some_iff.mp ((List.getElem?_modify ..).symm.trans hj)
    split at hu
    · cases x <;> cases hu <;> exact ht
    · exact h.allocated x (List.mem_of_getElem? hx) u hu
  left := h.left
  right := h.right

theorem edit (h : w.Alike w') (i : Nat) {u : Update (Tensor α) Unit}
    (hu : u.Keeps Tensor.outline) :
    (w.edit i u).1 = (w'.edit i u).1 ∧ (w.edit i u).2.Alike (w'.edit i u).2 := by
  rw [World.edit, World.edit, h.tensor? i]
  cases ht : w'.tensor? i with
  | none => exact ⟨rfl, h⟩
  | some t => exact ⟨rfl, h.modify i ((h.allocated_tensor? ht).exec hu)⟩

/-- What is lent and cleared is the same in both worlds. -/
theorem lend (h : w.Alike w') (key : CacheKey) :
    (w.lend key).1 = (w'.lend key).1 ∧ (w.lend key).2.Alike (w'.lend key).2 := by
  obtain ⟨hleft, hc⟩ := Cache.getCleared_eq h.left key
  obtain ⟨hright, hc'⟩ := Cache.getCleared_eq h.right key
  rw [World.lend, World.lend]
  generalize (Cache.getCleared key).exec w.cache = x at hleft hc
  generalize (Cache.getCleared key).exec w'.cache = y at hright hc'
  obtain ⟨x, c⟩ := x
  obtain ⟨y, c'⟩ := y
  dsimp only at hleft hright hc hc'
  subst hleft hright
  cases hzeros : (Tensor.zeros key.dtype key.shape : Outcome (Tensor α)) with
  | error f => exact ⟨rfl, h.held, h.allocated, hc, hc'⟩
  | ok t =>
    refine ⟨rfl, h.push hc hc' fun u hu => ?_⟩
    obtain rfl := Option.some.inj hu
    exact Tensor.zeros_allocated hzeros

/-- A loan in a holding is of an allocated tensor. -/
theorem allocated_lent (h : w.Alike w') {i : Nat} {l : Loan α} (hl : w'.held[i]? = some (.lent l)) :
    l.tensor.Allocated :=
  h.allocated_tensor? (i := i) (by rw [World.tensor?, hl]; rfl)

/-- An operation shows the same in both worlds, and leaves them alike. -/
theorem step (h : w.Alike w') (op : Op α) :
    (w.step op).1 = (w'.step op).1 ∧ (w.step op).2.Alike (w'.step op).2 := by
  cases op with
  | lend key => exact h.lend key
  | zeros d shape => exact h.keep fun t ht => Tensor.zeros_allocated ht
  | new values shape =>
    refine h.keep fun t ht => ?_
    obtain ⟨_, hcapacity, ht⟩ := bind_eq_ok.mp ht
    exact Tensor.new_allocated hcapacity ht
  | ofValues d shape values =>
    refine h.keep fun t ht => ?_
    obtain ⟨_, hcapacity, ht⟩ := bind_eq_ok.mp ht
    exact Tensor.ofValues_allocated hcapacity ht
  | set i v index => exact h.edit i (Tensor.set_keeps v index)
  | clear i => exact h.edit i Tensor.clear_keeps
  | write i path m => exact h.edit i (Tensor.writePart_keeps path m)
  | copy i src steps source start len =>
    rw [World.step, World.step, h.tensor? src]
    cases w'.tensor? src with
    | none => exact ⟨rfl, h⟩
    | some s =>
      dsimp only
      split
      · exact ⟨rfl, h⟩
      · exact h.edit i (Tensor.copyFrom_keeps _ source start len)
  | read i => exact ⟨congrArg Except.ok (h.tensor? i), h⟩
  | drop i =>
    rw [World.step, World.step, h.held]
    split
    · rename_i l hl
      have hparks := (h.allocated_lent hl).parks
      exact ⟨rfl, h.put (h.left.release hparks) (h.right.release hparks) i (x := .gone) nofun⟩
    · exact ⟨rfl, h.put h.left h.right i (x := .gone) nofun⟩
  | detach i =>
    rw [World.step, World.step, h.held]
    split
    · rename_i l hl
      refine ⟨rfl, h.put h.left h.right i fun t ht => ?_⟩
      obtain rfl := Option.some.inj ht
      exact h.allocated_lent hl
    · exact ⟨rfl, h⟩
  | release i =>
    rw [World.step, World.step, h.tensor? i, h.held]
    cases ht : w'.tensor? i with
    | none => exact ⟨rfl, h⟩
    | some t =>
      have hparks := (h.allocated_tensor? ht).parks
      exact ⟨rfl, h.put (h.left.release hparks) (h.right.release hparks) i (x := .gone) nofun⟩
  | clearCache => exact ⟨rfl, h.held, h.allocated, .clear _, .clear _⟩

end World.Alike

/-- A program sees the same in worlds that are alike. -/
theorem Program.run_alike [Scalar α] (p : Program α) (n : Nat) {w w' : World α} (h : w.Alike w')
    (seen : List (Seen α)) : p.run n w seen = p.run n w' seen := by
  induction n generalizing w w' seen with
  | zero => rfl
  | succ n ih =>
    rw [run, run]
    cases p seen with
    | none => rfl
    | some op =>
      obtain ⟨hshown, hnext⟩ := h.step op
      dsimp only
      rw [hshown, ih hnext]

/-- What a program sees does not depend on the capacity of its cache. -/
theorem Program.run_eq [Scalar α] (p : Program α) (n capacity capacity' : Nat) :
    p.run n (World.start capacity) [] = p.run n (World.start capacity') [] :=
  p.run_alike n (World.Alike.start capacity capacity') []

end BlockTensor
