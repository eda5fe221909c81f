import BlockTensor.Cache
import BlockTensor.Proofs.Frame

/-!
# Tensors as they are allocated

A key is backed by elements if these have the layout of the zeros that would be
allocated for it, and those may be allocated (`CacheKey.Backs`). A tensor is
`Allocated` if it owns elements that back its own key. Every constructor makes
such tensors (`zeros_allocated`, `new_allocated`, `ofValues_allocated`), and no
update changes that, since none changes a layout (`Allocated.of_outline`).

Clearing elements that back a key gives exactly the zeros of the key
(`Backs.zeros_eq`): the codes and scales of every encoding, padding included.
-/

namespace BlockTensor

open Outcome Update

variable {α : Type}

/-- Elements in buffers like those that are allocated for a key. -/
structure CacheKey.Backs [Zero α] (key : CacheKey) (e : Elements α) : Prop where
  numel : key.shape.size < Word.bound
  capacity : checkCapacity (key.dtype.storageBytes key.shape.size) = .ok ()
  layout : e.layout = (Elements.zeros key.dtype key.shape.size : Elements α).layout

namespace Elements

/-- Zeroing erases everything but the layout. -/
theorem fillZero_eq_zeros [Zero α] {e : Elements α} {d : DType} {n : Nat}
    (h : e.layout = (zeros d n : Elements α).layout) : e.fillZero = zeros d n := by
  cases e <;> cases d <;> simp_all [layout, zeros, fillZero]

theorem put_layout (e : Elements α) (s : Segment α) : (e.put s).layout = e.layout := by
  rcases s with ⟨start, new⟩
  cases e <;> cases new <;> simp [put, layout]

/-- Encoding fills buffers like those of zeros. -/
theorem encode_layout [Scalar α] {d : DType} {values : Array α} {e : Elements α}
    (h : encode d values = .ok e) : e.layout = (zeros d values.size : Elements α).layout := by
  have hkeeps := write_keeps 0 values (zeros d values.size)
  unfold encode at h
  split at h
  · rename_i hw
    rw [hw] at hkeeps
    rwa [← Except.ok.inj h]
  · cases h

end Elements

namespace CacheKey.Backs

variable [Scalar α] {key : CacheKey} {e : Elements α}

theorem zeros_eq (h : key.Backs e) :
    Tensor.zeros key.dtype key.shape = .ok (.owning key.shape e.fillZero) := by
  rw [Tensor.zeros, Shape.numel_eq h.numel, ok_bind, Elements.fresh, h.capacity,
    Elements.fillZero_eq_zeros h.layout]
  rfl

end CacheKey.Backs

namespace Tensor

/-- A tensor that owns buffers like those that are allocated for its key. -/
def Allocated [Zero α] (t : Tensor α) : Prop :=
  ∃ e, t.storage = .owned e ∧ CacheKey.Backs ⟨e.dtype, t.shape⟩ e

/-- What a tensor is apart from the values that it holds. -/
def outline (t : Tensor α) : Shape × Option (DType × Nat × Nat) :=
  (t.shape, t.owned?.map Elements.layout)

theorem Allocated.of_outline [Zero α] {t u : Tensor α} (ht : t.Allocated)
    (h : u.outline = t.outline) : u.Allocated := by
  obtain ⟨shape, storage⟩ := t
  obtain ⟨e, rfl, hbacks⟩ := ht
  obtain ⟨rfl, howned⟩ := Prod.mk.inj h
  obtain ⟨e', he', hlayout⟩ := Option.map_eq_some_iff.mp howned
  have hstorage : u.storage = .owned e' := by
    unfold owned? at he'
    split at he'
    · rename_i hs
      rw [hs, Option.some.inj he']
    · cases he'
  have hdtype := Elements.dtype_eq_of_layout hlayout
  refine ⟨e', hstorage, hdtype ▸ ⟨hbacks.numel, hbacks.capacity, hlayout.trans hbacks.layout⟩⟩

/-- The encoding of owned elements is a part of the outline. -/
theorem dtype_eq_of_outline {t u : Tensor α} (howned : t.isReadOnly = false)
    (h : u.outline = t.outline) : u.dtype = t.dtype := by
  obtain ⟨shape, storage⟩ := t
  obtain ⟨shape', storage'⟩ := u
  cases storage with
  | shared e | mapped m => cases howned
  | owned e =>
    obtain ⟨-, hlayout⟩ := Prod.mk.inj h
    cases storage' with
    | shared e' | mapped m' => cases hlayout
    | owned e' => exact Elements.dtype_eq_of_layout (Option.some.inj hlayout)

/-! ## Updates -/

/-- Write to the part of a tensor at the end of a path. -/
def updatePart (path : List Target.Step) (u : Update (Target α) Unit) :
    Update (Tensor α) Unit := fun t =>
  match (do (← t.target).followAll path) with
  | .error f => .error f t
  | .ok part =>
    match u part with
    | .ok v part => .ok v (t.put part)
    | .error f part => .error f (t.put part)

theorem left_update {β : Type} (u : Update (Elements α) β) (shape : Shape) (e : Elements α) :
    left (update u (owning shape e)) = owning shape (left (u e)) := by
  have hwritable : (owning shape e).storage.writable = .ok e := rfl
  unfold update
  rw [hwritable]
  dsimp only
  cases u e <;> rfl

theorem left_updatePart {path : List Target.Step} {u : Update (Target α) Unit} {t : Tensor α}
    {part : Target α} (h : (do (← t.target).followAll path) = .ok part) :
    left (updatePart path u t) = t.put (left (u part)) := by
  unfold updatePart
  rw [h]
  dsimp only
  cases u part <;> rfl

theorem update_keeps {β : Type} {u : Update (Elements α) β} (h : u.Keeps Elements.layout) :
    (update u).Keeps outline := by
  rintro ⟨shape, storage⟩
  cases storage with
  | owned e =>
    show (left (update u (owning shape e))).outline = _
    rw [left_update]
    exact congrArg (fun l => (shape, some l)) (h e)
  | _ => rfl

theorem put_outline (t : Tensor α) (part : Target α) : (t.put part).outline = t.outline := by
  obtain ⟨shape, storage⟩ := t
  cases storage with
  | owned e => exact congrArg (fun l => (shape, some l)) (Elements.put_layout e part.segment)
  | _ => rfl

theorem updatePart_keeps (path : List Target.Step) (u : Update (Target α) Unit) :
    (updatePart path u).Keeps outline := by
  intro t
  unfold updatePart
  split
  · rfl
  · split <;> exact put_outline ..

variable [Scalar α]

theorem set_keeps (v : α) (index : List Nat) : (set v index).Keeps outline := by
  intro t
  unfold set
  split
  · rfl
  · exact update_keeps (Elements.write_keeps _ _) t

theorem clear_keeps : (clear : Update (Tensor α) Unit).Keeps outline :=
  update_keeps fun e => Elements.fillZero_layout e

theorem copyFrom_keeps (src : View α) (source start len : Nat) :
    (copyFrom src source start len).Keeps outline := by
  intro t
  unfold copyFrom
  split
  · rfl
  · split <;> exact put_outline ..

/-! ## Constructors -/

theorem zeros_eq_ok {d : DType} {shape : Shape} {t : Tensor α} (h : zeros d shape = .ok t) :
    shape.size < Word.bound ∧ checkCapacity (d.storageBytes shape.size) = .ok () ∧
      t = owning shape (Elements.zeros d shape.size) := by
  obtain ⟨n, hn, h⟩ := bind_eq_ok.mp h
  obtain ⟨hsize, rfl⟩ := Word.check_eq_ok.mp hn
  obtain ⟨e, he, h⟩ := bind_eq_ok.mp h
  obtain ⟨_, hcapacity, he⟩ := bind_eq_ok.mp he
  exact ⟨hsize, hcapacity, by rw [← Except.ok.inj h, ← Except.ok.inj he]⟩

/-- Encoded values take no more than a buffer can, if the values did not. -/
theorem capacity_of_f32 (d : DType) {n : Nat}
    (h : checkCapacity (DType.f32.storageBytes n) = .ok ()) :
    checkCapacity (d.storageBytes n) = .ok () := by
  have hf32 : DType.f32.storageBytes n < 0x8000000000000000 := by
    unfold checkCapacity at h
    split at h
    · assumption
    · exact absurd h (stop_ne_ok _ _)
  refine if_pos ?_
  cases d <;>
    simp only [DType.storageBytes, DType.dataBytes, DType.scaleBytes, DType.blocksFor,
      DType.unitBytes, DType.isQuantized, blocksOf, blockSize, q4BlockBytes, if_true, if_false,
      Bool.false_eq_true] at * <;>
    omega

theorem allocated_owning {shape : Shape} {e : Elements α} (hsize : shape.size < Word.bound)
    (hcapacity : checkCapacity (e.dtype.storageBytes shape.size) = .ok ())
    (hlayout : e.layout = (Elements.zeros e.dtype shape.size : Elements α).layout) :
    (owning shape e).Allocated := ⟨e, rfl, hsize, hcapacity, hlayout⟩

theorem zeros_allocated {d : DType} {shape : Shape} {t : Tensor α} (h : zeros d shape = .ok t) :
    t.Allocated := by
  obtain ⟨hsize, hcapacity, rfl⟩ := zeros_eq_ok h
  refine allocated_owning hsize ?_ ?_
  · rwa [Elements.dtype_zeros]
  · rw [Elements.dtype_zeros]

theorem new_allocated {values : Array α} {shape : Shape} {t : Tensor α}
    (hvalues : checkCapacity (DType.f32.storageBytes values.size) = .ok ())
    (h : new values shape = .ok t) : t.Allocated := by
  obtain ⟨n, hn, h⟩ := bind_eq_ok.mp h
  obtain ⟨hsize, rfl⟩ := Word.check_eq_ok.mp hn
  split at h
  · rename_i heq
    obtain rfl := Except.ok.inj h
    refine allocated_owning hsize (heq ▸ hvalues) ?_
    simp [Elements.layout, Elements.zeros, Elements.dtype, heq]
  · exact absurd h (stop_ne_ok _ _)

theorem ofValues_allocated {d : DType} {shape : Shape} {values : Array α} {t : Tensor α}
    (hvalues : checkCapacity (DType.f32.storageBytes values.size) = .ok ())
    (h : ofValues d shape values = .ok t) : t.Allocated := by
  obtain ⟨n, hn, h⟩ := bind_eq_ok.mp h
  obtain ⟨hsize, rfl⟩ := Word.check_eq_ok.mp hn
  split at h
  · exact absurd h (fail_ne_ok _ _)
  rename_i heq
  have heq : values.size = shape.size := by simpa using heq
  obtain ⟨e, he, h⟩ := bind_eq_ok.mp h
  obtain rfl := Except.ok.inj h
  have hlayout : e.layout = (Elements.zeros d shape.size : Elements α).layout :=
    heq ▸ Elements.encode_layout he
  have hdtype : e.dtype = d :=
    (Elements.dtype_eq_of_layout hlayout).trans (Elements.dtype_zeros _ _)
  exact allocated_owning hsize (capacity_of_f32 _ (heq ▸ hvalues)) (hdtype.symm ▸ hlayout)

/-- Allocated tensors hold the blocks of their shape. -/
theorem Allocated.filled {t : Tensor α} (h : t.Allocated) : t.Filled := by
  obtain ⟨shape, storage⟩ := t
  obtain ⟨e, rfl, hbacks⟩ := h
  show e.size = e.dtype.blocksFor shape.size * e.dtype.blockSize
  rw [Elements.size_eq_of_layout hbacks.layout, Elements.size_zeros]

end Tensor

end BlockTensor
