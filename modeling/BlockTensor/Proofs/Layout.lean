import BlockTensor.Backend.Basic
import BlockTensor.Proofs.Cell

/-!
# Writes keep the layout

`Elements.layout` is the encoding of some elements and the lengths of their
buffers. No operation changes it, whatever it writes and however it ends:
`Update.Keeps` says so of an update, and composes along binds and loops
(`keeps_bind`, `keeps_forM`), as does `Update.Preserves` for any property of the
state.

* `write_keeps`, `copyRaw_keeps`: writing and copying elements.
* `Backend.scale_keeps`, `Backend.accumulate_keeps`: the elementwise operations
  of every backend.
-/

namespace BlockTensor

open Outcome

namespace Update

variable {σ β γ δ : Type}

/-- The state that a run leaves, in its success and in its failure. -/
def left : EStateM.Result Fault σ β → σ
  | .ok _ s => s
  | .error _ s => s

@[simp] theorem left_ok (v : β) (s : σ) : left (.ok v s) = s := rfl

@[simp] theorem left_error (e : Fault) (s : σ) : left (.error e s : EStateM.Result Fault σ β) = s :=
  rfl

theorem exec_snd (u : Update σ β) (s : σ) : (u.exec s).2 = left (u s) := by
  unfold exec
  cases u s <;> rfl

/-- What an update leaves of `f`, however it ends. -/
def Keeps (u : Update σ β) (f : σ → δ) : Prop := ∀ s, f (left (u s)) = f s

variable {f : σ → δ}

theorem keeps_pure (v : β) : Keeps (pure v : Update σ β) f := fun _ => rfl

theorem keeps_ofOutcome (x : Outcome β) : Keeps (ofOutcome x : Update σ β) f := fun s => by
  unfold ofOutcome
  cases x <;> rfl

theorem keeps_bind {u : Update σ β} {k : β → Update σ γ} (h : Keeps u f)
    (hk : ∀ v, Keeps (k v) f) : Keeps (u >>= k) f := by
  intro s
  have hs := h s
  simp only [bind, EStateM.bind]
  cases hu : u s with
  | ok v s' =>
    rw [hu] at hs
    exact (hk v s').trans hs
  | error e s' =>
    rw [hu] at hs
    exact hs

theorem keeps_forM {xs : List β} {k : β → Update σ Unit} (hk : ∀ x ∈ xs, Keeps (k x) f) :
    Keeps (xs.forM k) f := by
  induction xs with
  | nil => exact keeps_pure ()
  | cons x xs ih =>
    exact keeps_bind (hk x List.mem_cons_self) fun _ =>
      ih fun y hy => hk y (List.mem_cons_of_mem _ hy)

/-- What is true of a state is true of the one that an update leaves, however it
ends. -/
def Preserves (P : σ → Prop) (u : Update σ β) : Prop := ∀ s, P s → P (left (u s))

variable {P : σ → Prop}

theorem preserves_pure (v : β) : Preserves P (pure v : Update σ β) := fun _ hs => hs

theorem preserves_bind {u : Update σ β} {k : β → Update σ γ} (h : Preserves P u)
    (hk : ∀ v, Preserves P (k v)) : Preserves P (u >>= k) := by
  intro s hs
  have hleft := h s hs
  simp only [bind, EStateM.bind]
  cases hu : u s with
  | ok v s' =>
    rw [hu] at hleft
    exact hk v s' hleft
  | error e s' =>
    rw [hu] at hleft
    exact hleft

/-- What follows an outcome runs with its value. -/
theorem preserves_ofOutcome_bind {x : Outcome β} {k : β → Update σ γ}
    (hk : ∀ v, x = .ok v → Preserves P (k v)) : Preserves P (ofOutcome x >>= k) := by
  intro s hs
  cases x with
  | ok v => exact hk v rfl s hs
  | error e => exact hs

theorem preserves_forM {xs : List β} {k : β → Update σ Unit} (hk : ∀ x ∈ xs, Preserves P (k x)) :
    Preserves P (xs.forM k) := by
  induction xs with
  | nil => exact preserves_pure ()
  | cons x xs ih =>
    exact preserves_bind (hk x List.mem_cons_self) fun _ =>
      ih fun y hy => hk y (List.mem_cons_of_mem _ hy)

end Update

open Update

namespace Elements

variable {α : Type}

theorem dataCount_of_layout {e e' : Elements α} (h : e'.layout = e.layout) :
    e'.dataCount = e.dataCount := by
  rw [dataCount, h, dataCount]

theorem scaleCount_of_layout {e e' : Elements α} (h : e'.layout = e.layout) :
    e'.scaleCount = e.scaleCount := by
  rw [scaleCount, h, scaleCount]

theorem dtype_eq_of_layout {e e' : Elements α} (h : e'.layout = e.layout) : e'.dtype = e.dtype := by
  cases e <;> cases e' <;> simp_all [layout, dtype]

theorem size_eq_of_layout {e e' : Elements α} (h : e'.layout = e.layout) : e'.size = e.size := by
  cases e <;> cases e' <;> simp_all [layout, size]

theorem Scaled.of_layout {e e' : Elements α} (he : e.Scaled) (h : e'.layout = e.layout) :
    e'.Scaled := by
  cases e <;> cases e' <;> simp_all [layout, Scaled]

theorem scaled_zeros [Zero α] (d : DType) (n : Nat) : (zeros d n : Elements α).Scaled := by
  cases d <;> simp [zeros, Scaled]

theorem WellFormed.of_layout {e e' : Elements α} (he : e.WellFormed) (h : e'.layout = e.layout) :
    e'.WellFormed :=
  ⟨he.scaled.of_layout h, size_eq_of_layout h ▸ he.fits⟩

theorem fillZero_layout [Zero α] (e : Elements α) : e.fillZero.layout = e.layout := by
  cases e <;> simp [fillZero, layout]

theorem size_copyScales {scales src out : Array α} {start source n : Nat}
    (h : copyScales scales start src source n = .ok out) : out.size = scales.size := by
  obtain ⟨_, -, h⟩ := bind_eq_ok.mp h
  obtain ⟨_, -, h⟩ := bind_eq_ok.mp h
  obtain rfl := Except.ok.inj h
  exact Buffer.size_blit ..

theorem copyRaw_keeps (start : Nat) (src : Elements α) (source len : Nat) :
    Keeps (copyRaw start src source len) layout := by
  intro e
  unfold copyRaw
  dsimp only
  split
  · rfl
  cases e <;> cases src <;> try rfl
  · simp [layout]
  · simp [layout]
  · simp [layout]
  · -- the scales may stop a copy after the data has been written
    dsimp only
    split
    · rename_i h
      simp [layout, size_copyScales h]
    · simp [layout]
  · dsimp only
    split
    · rename_i h
      simp [layout, size_copyScales h]
    · simp [layout]

variable [Scalar α]

theorem setBlock_layout (b : Nat) (values : Array α) (e : Elements α) :
    (e.setBlock b values).layout = e.layout := by
  cases e <;> simp [setBlock, layout]

theorem writeBlock_keeps (start : Nat) (src : Array α) (b : Nat) :
    Keeps (writeBlock start src b) layout := by
  intro e
  unfold writeBlock
  split
  · rfl
  · exact setBlock_layout ..

theorem write_keeps (start : Nat) (src : Array α) : Keeps (write start src) layout := by
  intro e
  unfold write
  split
  · rfl
  cases e with
  | f32 data | f16 data | bf16 data => simp [layout]
  | q8 data scales | q4 data scales => exact keeps_forM (fun b _ => writeBlock_keeps start src b) _

end Elements

open Elements

variable {α : Type}

theorem Vector.updateRun_keeps (start len : Nat) (f : Array α → Outcome (Array α)) :
    Keeps (updateRun start len f) layout := by
  intro e
  unfold updateRun
  cases e with
  | f32 data =>
    dsimp only
    split
    · simp [layout]
    · rfl
  | _ => rfl

variable [Scalar α]

theorem Reference.updateWindow_keeps (start len : Nat) (f : Nat → α → Outcome α) :
    Keeps (updateWindow start len f) layout := by
  intro e
  unfold updateWindow
  split
  · rfl
  · exact write_keeps ..

theorem Reference.scale_keeps (factor : α) (offset len : Nat) (x : Shape) :
    Keeps (Reference.scale factor offset len x) layout :=
  keeps_bind (keeps_ofOutcome _) fun _ => keeps_forM fun _ _ => updateWindow_keeps _ _ _

theorem Reference.combineRows_keeps (op : String) (f : α → α → α) (src : View α) (offset len : Nat)
    (dst : Shape) : Keeps (Reference.combineRows op f src offset len dst) layout :=
  keeps_bind (keeps_ofOutcome _) fun _ => keeps_forM fun _ _ => updateWindow_keeps _ _ _

theorem Vector.scale_keeps (p : Pool) (factor : α) (offset len : Nat) (x : Shape) :
    Keeps (Vector.scale p factor offset len x) layout := by
  intro e
  unfold Vector.scale
  split
  · exact keeps_bind (f := layout) (keeps_ofOutcome _)
      (fun _ => keeps_forM fun _ _ => updateRun_keeps _ _ _) e
  · exact Reference.scale_keeps factor offset len x e

theorem Vector.combineRows_keeps (p : Pool) (op : String) (f : α → α → α) (src : View α)
    (offset len : Nat) (dst : Shape) :
    Keeps (Vector.combineRows p op f src offset len dst) layout := by
  intro e
  unfold Vector.combineRows
  split
  · exact keeps_bind (f := layout) (keeps_ofOutcome _)
      (fun _ => keeps_forM fun _ _ => updateRun_keeps _ _ _) e
  · exact Reference.combineRows_keeps op f src offset len dst e

theorem Backend.scale_keeps (be : Backend α) (factor : α) (offset len : Nat) (x : Shape) :
    Keeps (be.scale factor offset len x) layout := by
  unfold Backend.scale
  split
  · exact Reference.scale_keeps factor offset len x
  · exact Vector.scale_keeps _ factor offset len x

theorem Backend.accumulate_keeps (be : Backend α) (src : View α) (offset len : Nat) (dst : Shape) :
    Keeps (be.accumulate src offset len dst) layout := by
  unfold Backend.accumulate
  split
  · exact Reference.combineRows_keeps "accumulate" (· + ·) src offset len dst
  · exact Vector.combineRows_keeps _ "accumulate" (· + ·) src offset len dst

end BlockTensor
