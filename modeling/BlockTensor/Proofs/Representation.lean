import BlockTensor.Proofs.Copy
import BlockTensor.Proofs.MappedElements
import BlockTensor.Proofs.Workspace

/-!
# How tensors are represented

Elements represent `n` elements in an encoding if their buffers have the lengths
of those of `n` zeros (`Elements.Represents`): whole blocks, just enough, and one
scale to each. Every way of making a tensor makes such elements for the elements
of its shape (`Make.run_represented`), whether it counts the blocks itself, takes
them out of a buffer, encodes values or maps a file, and no way of writing to a
tensor changes the lengths (`Edit.run_represented`).

`Workspace.run_tensors`: in every run every tensor takes exactly the bytes of its
shape, and can be read at each index vector of its shape and at no other.
-/

namespace BlockTensor

open Outcome Update Shape

variable {α : Type}

/-! ## Reading at any index vector -/

/-- The row-major position of a vector is within the shape, or the vector is
refused. -/
theorem Shape.offsetFrom_error {axis acc : Nat} {dims index : List Nat}
    (hpos : ∀ d ∈ dims, 0 < d) (hlen : index.length = dims.length) (hi : ¬InRange dims index)
    (hb : acc + volume dims ≤ Word.bound) :
    ∃ err, offsetFrom axis acc dims (rowMajor dims) index = .error (.error err) := by
  induction dims generalizing axis acc index with
  | nil =>
    obtain rfl := List.length_eq_zero_iff.mp hlen
    exact absurd inRange_nil hi
  | cons d dims ih =>
    obtain ⟨i, index, rfl⟩ := List.exists_cons_of_length_eq_add_one hlen
    rw [rowMajor, offsetFrom]
    by_cases hd : d ≤ i
    · exact ⟨_, if_pos hd⟩
    have hlt : i < d := Nat.not_le.mp hd
    obtain ⟨-, hpos⟩ := List.forall_mem_cons.mp hpos
    -- what has been added up so far leaves room for the rows that follow
    have hroom : i * volume dims + volume dims ≤ volume (d :: dims) := by
      rw [← Nat.succ_mul, volume_cons]
      exact Nat.mul_le_mul_right _ hlt
    have hvol := volume_pos hpos
    rw [if_neg hd, Word.mul_of_lt (by omega), ok_bind, Word.add_of_lt (by omega), ok_bind]
    exact ih hpos (Nat.succ.inj hlen) (fun hin => hi ⟨hlt, hin⟩) (by omega)

theorem Shape.offsetOf_error {s : Shape} (hb : s.size < Word.bound) {index : List Nat}
    (hi : ¬InRange s.dims index) : ∃ err, s.offsetOf index = .error (.error err) := by
  unfold offsetOf offset
  split
  · exact ⟨_, rfl⟩
  · rename_i hlen
    have hsize : 0 + volume s.dims ≤ Word.bound := by
      rw [Nat.zero_add]
      exact Nat.le_of_lt hb
    exact offsetFrom_error s.pos (Classical.not_not.mp hlen) hi hsize

/-! ## Elements -/

namespace Elements

/-- Elements in buffers like those of `n` zeros. -/
def Represents [Zero α] (d : DType) (n : Nat) (e : Elements α) : Prop :=
  e.layout = (zeros d n : Elements α).layout

section

variable [Zero α] {d : DType} {n : Nat} {e : Elements α}

theorem zeros_represents (d : DType) (n : Nat) : Represents d n (zeros d n : Elements α) := rfl

theorem Represents.dtype (h : Represents d n e) : e.dtype = d :=
  (dtype_eq_of_layout h).trans (dtype_zeros d n)

theorem Represents.size (h : Represents d n e) : e.size = d.blocksFor n * d.blockSize :=
  (size_eq_of_layout h).trans (size_zeros d n)

/-- There is a scale to each block of a quantized encoding, none in another. -/
theorem Represents.scaleCount (h : Represents d n e) :
    e.scaleCount = if d.isQuantized then d.blocksFor n else 0 := by
  refine (scaleCount_of_layout h).trans ?_
  cases d <;> simp [zeros, Elements.scaleCount, layout, DType.blocksFor, DType.isQuantized]

theorem Represents.scaled (h : Represents d n e) : e.Scaled := (scaled_zeros d n).of_layout h

theorem Represents.nbytes (h : Represents d n e) : e.nbytes = d.storageBytes n := by
  unfold Represents at h
  cases e <;> cases d <;>
    simp_all [layout, zeros, Elements.nbytes, DType.storageBytes, DType.dataBytes, DType.scaleBytes,
      DType.blocksFor, DType.unitBytes, DType.isQuantized]

theorem Represents.le_size (h : Represents d n e) : n ≤ e.size :=
  h.size ▸ DType.blocksFor_le d n

/-- The first elements of any are so many in whole blocks. -/
theorem take_represents {e e' : Elements α} (h : e.take n = .ok e') : Represents e.dtype n e' := by
  cases e with
  | f32 data | f16 data | bf16 data =>
    obtain ⟨run, hrun, h⟩ := bind_eq_ok.mp h
    obtain rfl := Except.ok.inj h
    obtain ⟨hsize, -, -⟩ := Segment.cut_size hrun
    simp [Represents, layout, zeros, Elements.dtype, hsize]
  | q8 data scales | q4 data scales =>
    obtain ⟨run, hrun, h⟩ := bind_eq_ok.mp h
    obtain ⟨runScales, hscales, h⟩ := bind_eq_ok.mp h
    obtain rfl := Except.ok.inj h
    obtain ⟨hsize, -, -⟩ := Segment.cut_size hrun
    obtain ⟨hsizes, -, -⟩ := Segment.cut_size hscales
    simp [Represents, layout, zeros, Elements.dtype, hsize, hsizes]

end

variable [Scalar α]

theorem encode_represents {d : DType} {values : Array α} {e : Elements α}
    (h : encode d values = .ok e) : Represents d values.size e := encode_layout h

theorem read_size {e : Elements α} {start len : Nat} {values : Array α}
    (h : e.read start len = .ok values) : values.size = len := by
  rw [run_of_read h, size_run]

end Elements

/-- The regions of a mapping hold its elements. -/
theorem Mapping.elements_represents [Scalar α] (m : Mapping) :
    (m.elements : Elements α).Represents m.dtype m.count := m.elements_layout

/-- Blocks are encoded into the buffers that zeros would have. -/
theorem Vector.encodeBlocks_represents [Scalar α] {p : Pool} {d : DType} {values : Array α}
    {e : Elements α} (h : encodeBlocks p d values = .ok e) : e.Represents d values.size := by
  have hfold {β : Type} (step : Array β × Array α → Nat → Array β × Array α)
      (hstep : ∀ buffers b, (step buffers b).1.size = buffers.1.size ∧
        (step buffers b).2.size = buffers.2.size) (bs : List Nat) (buffers : Array β × Array α) :
      (bs.foldl step buffers).1.size = buffers.1.size ∧
        (bs.foldl step buffers).2.size = buffers.2.size := by
    induction bs generalizing buffers with
    | nil => exact ⟨rfl, rfl⟩
    | cons b bs ih => exact ⟨(ih _).1.trans (hstep _ b).1, (ih _).2.trans (hstep _ b).2⟩
  have hq8 := hfold (Q8.writeBlock values) fun buffers b => by simp [Q8.writeBlock]
  have hq4 := hfold (Q4.writeBlock values) fun buffers b => by simp [Q4.writeBlock]
  cases d with
  | f32 | f16 | bf16 => exact Elements.encode_represents h
  | q8 =>
    obtain rfl := Except.ok.inj h
    simp [Elements.Represents, Elements.layout, Elements.zeros, hq8]
  | q4 =>
    obtain rfl := Except.ok.inj h
    simp [Elements.Represents, Elements.layout, Elements.zeros, hq4]

/-! ## Views -/

theorem Shape.visit_size {β : Type} {s : Shape} {f : List Nat → Outcome β} {values : Array β}
    (hb : s.size < Word.bound) (h : s.visit f = .ok values) : values.size = s.size := by
  rw [visit_eq_mapM _ _ hb] at h
  obtain ⟨vs, hvs, h⟩ := bind_eq_ok.mp h
  obtain rfl := Except.ok.inj h
  have hlen := (forall₂_of_mapM hvs).length_eq
  rw [indices_eq_map, List.length_map, List.length_range] at hlen
  exact hlen.symm

namespace View

/-- The number of elements of a view is a machine word. -/
def Countable (v : View α) : Prop := v.shape.size < Word.bound

theorem of_countable {shape : Shape} {e : Elements α} {v : View α} (h : of shape e = .ok v) :
    v.Countable := by
  obtain ⟨hb, -, rfl⟩ := of_eq_ok h
  exact hb

theorem Countable.transpose {v w : View α} (hv : v.Countable) {perm : List Nat}
    (h : v.transpose perm = .ok w) : w.Countable := by
  unfold View.transpose at h
  dsimp only at h
  split at h
  · exact absurd h (fail_ne_ok _ _)
  obtain ⟨shape, hshape, h⟩ := bind_eq_ok.mp h
  obtain rfl := Except.ok.inj h
  obtain ⟨hperm, hdims⟩ := (permute_ensures v.shape perm hv).of_ok hshape
  have hsize : shape.size = v.shape.size := by
    rw [Shape.size, hdims]
    exact volume_perm (permuted_perm hperm rfl)
  rw [Countable, hsize]
  exact hv

theorem Countable.follow {v w : View α} (hv : v.Countable) {s : Step} (h : v.follow s = .ok w) :
    w.Countable := by
  cases s with
  | slice | sliceAt =>
    obtain ⟨_, -, h⟩ := bind_eq_ok.mp h
    obtain ⟨_, -, h⟩ := bind_eq_ok.mp h
    obtain ⟨_, -, h⟩ := bind_eq_ok.mp h
    obtain ⟨_, -, h⟩ := bind_eq_ok.mp h
    exact of_countable h
  | narrow start count =>
    obtain ⟨_, -, h⟩ := bind_eq_ok.mp h
    obtain ⟨_, -, h⟩ := bind_eq_ok.mp h
    dsimp only at h
    split at h
    · exact absurd h (fail_ne_ok _ _)
    obtain ⟨_, -, h⟩ := bind_eq_ok.mp h
    obtain ⟨_, -, h⟩ := bind_eq_ok.mp h
    exact of_countable h
  | reshape shape =>
    obtain ⟨_, -, h⟩ := bind_eq_ok.mp h
    dsimp only at h
    split at h
    · exact absurd h (fail_ne_ok _ _)
    obtain ⟨_, -, h⟩ := bind_eq_ok.mp h
    exact of_countable h
  | transpose perm => exact hv.transpose h

theorem Countable.followAll {v w : View α} (hv : v.Countable) {steps : List Step}
    (h : v.followAll steps = .ok w) : w.Countable := by
  induction steps generalizing v with
  | nil =>
    obtain rfl := Except.ok.inj h
    exact hv
  | cons s steps ih =>
    rw [View.followAll, List.foldlM_cons] at h
    obtain ⟨u, hu, h⟩ := bind_eq_ok.mp h
    exact ih (hv.follow hu) h

theorem values_size [Scalar α] {v : View α} (hv : v.Countable) {values : Array α}
    (h : v.values = .ok values) : values.size = v.size := by
  unfold View.values at h
  split at h
  · exact Elements.read_size h
  · exact visit_size hv h

end View

/-! ## Tensors -/

namespace Tensor

/-- A tensor whose storage is that of the elements of its shape. -/
structure Represented [Scalar α] (t : Tensor α) : Prop where
  numel : t.shape.size < Word.bound
  elements : t.elements.Represents t.dtype t.shape.size
  nbytes : t.nbytes = t.dtype.storageBytes t.shape.size

variable [Scalar α]

theorem represented_owning {shape : Shape} {d : DType} {e : Elements α}
    (hb : shape.size < Word.bound) (he : e.Represents d shape.size) :
    (owning shape e).Represented := by
  obtain rfl := he.dtype
  exact ⟨hb, he, he.nbytes⟩

theorem zeros_represented {d : DType} {shape : Shape} {t : Tensor α} (h : zeros d shape = .ok t) :
    t.Represented := by
  obtain ⟨hb, -, rfl⟩ := zeros_eq_ok h
  exact represented_owning hb (Elements.zeros_represents ..)

theorem new_represented {values : Array α} {shape : Shape} {t : Tensor α}
    (h : new values shape = .ok t) : t.Represented := by
  obtain ⟨n, hn, h⟩ := bind_eq_ok.mp h
  obtain ⟨hb, rfl⟩ := Word.check_eq_ok.mp hn
  split at h
  · rename_i hsize
    obtain rfl := Except.ok.inj h
    refine represented_owning (d := .f32) hb ?_
    simp [Elements.Represents, Elements.layout, Elements.zeros, hsize]
  · exact absurd h (stop_ne_ok _ _)

theorem ones_represented {shape : Shape} {t : Tensor α} (h : ones shape = .ok t) :
    t.Represented := by
  obtain ⟨n, -, h⟩ := bind_eq_ok.mp h
  obtain ⟨_, -, h⟩ := bind_eq_ok.mp h
  exact new_represented h

theorem ofValues_represented {d : DType} {shape : Shape} {values : Array α} {t : Tensor α}
    (h : ofValues d shape values = .ok t) : t.Represented := by
  obtain ⟨n, hn, h⟩ := bind_eq_ok.mp h
  obtain ⟨hb, rfl⟩ := Word.check_eq_ok.mp hn
  dsimp only at h
  split at h
  · exact absurd h (fail_ne_ok _ _)
  rename_i hsize
  have hsize : values.size = shape.size := Classical.not_not.mp hsize
  obtain ⟨e, he, h⟩ := bind_eq_ok.mp h
  obtain rfl := Except.ok.inj h
  exact represented_owning hb (hsize ▸ Elements.encode_represents he)

theorem ofMapping_represented {bytes : Array UInt8} {d : DType} {shape : Shape}
    {dataOffset : Nat} {scalesOffset : Option Nat} {t : Tensor α}
    (h : ofMapping bytes d shape dataOffset scalesOffset = .ok t) : t.Represented := by
  obtain ⟨n, hn, h⟩ := bind_eq_ok.mp h
  obtain ⟨hb, rfl⟩ := Word.check_eq_ok.mp hn
  obtain ⟨m, hm, h⟩ := bind_eq_ok.mp h
  obtain rfl := Except.ok.inj h
  obtain ⟨rfl, -⟩ := Mapping.make_eq_ok (Nat.zero_mod _) hm
  exact ⟨hb, Mapping.elements_represents _, rfl⟩

theorem Represented.share {t : Tensor α} (h : t.Represented) : t.share.Represented := by
  obtain ⟨shape, storage⟩ := t
  cases storage <;> exact ⟨h.numel, h.elements, h.nbytes⟩

theorem Represented.reshape {t u : Tensor α} (h : t.Represented) {shape : Shape}
    (hu : t.reshape shape = .ok u) : u.Represented := by
  obtain ⟨n, hn, hu⟩ := bind_eq_ok.mp hu
  obtain ⟨hb, rfl⟩ := Word.check_eq_ok.mp hn
  split at hu
  · rename_i hsize
    obtain rfl := Except.ok.inj hu
    exact ⟨hb, hsize ▸ h.elements, hsize ▸ h.nbytes⟩
  · exact absurd hu (fail_ne_ok _ _)

/-- What owned elements hold does not matter. -/
theorem Represented.of_outline {t u : Tensor α} (h : t.Represented)
    (howned : t.isReadOnly = false) (hu : u.outline = t.outline) : u.Represented := by
  obtain ⟨shape, storage⟩ := t
  obtain ⟨shape', storage'⟩ := u
  cases storage with
  | shared e => cases howned
  | mapped m => cases howned
  | owned e =>
    obtain ⟨rfl, hlayout⟩ := Prod.mk.inj hu
    cases storage' with
    | shared e => cases hlayout
    | mapped m => cases hlayout
    | owned e' =>
      have hlayout : e'.layout = e.layout := Option.some.inj hlayout
      exact represented_owning h.numel (hlayout.trans h.elements)

end Tensor

open Tensor

variable [Scalar α]

/-- A contiguous copy is what it copies in whole blocks. -/
theorem View.toTensor_elements {v : View α} (hc : v.isContiguous = true) (hs : v.elems.Scaled)
    {u : Tensor α} (h : v.toTensor = .ok u) :
    u.shape = v.shape ∧ v.elems.IsRange 0 v.size u.elements := by
  unfold View.toTensor at h
  rw [if_pos hc] at h
  obtain ⟨e, he, h⟩ := bind_eq_ok.mp h
  obtain rfl := Except.ok.inj h
  obtain ⟨hle, rfl⟩ := Elements.eq_extract_of_take he
  exact ⟨rfl, Elements.extract_isRange hs (Nat.zero_mod _) (by rwa [Nat.zero_add])⟩

theorem View.toTensor_dtype {v : View α} {u : Tensor α} (h : v.toTensor = .ok u) :
    u.dtype = v.dtype := by
  unfold View.toTensor at h
  dsimp only at h
  split at h
  · obtain ⟨e, he, h⟩ := bind_eq_ok.mp h
    obtain rfl := Except.ok.inj h
    exact (Elements.take_represents he).dtype
  · obtain ⟨values, -, h⟩ := bind_eq_ok.mp h
    obtain ⟨e, he, h⟩ := bind_eq_ok.mp h
    obtain rfl := Except.ok.inj h
    exact (Elements.encode_represents he).dtype

theorem View.toTensor_represented {v : View α} (hv : v.Countable) {t : Tensor α}
    (h : v.toTensor = .ok t) : t.Represented := by
  unfold View.toTensor at h
  dsimp only at h
  split at h
  · obtain ⟨e, he, h⟩ := bind_eq_ok.mp h
    obtain rfl := Except.ok.inj h
    exact represented_owning hv (Elements.take_represents he)
  · obtain ⟨values, hvalues, h⟩ := bind_eq_ok.mp h
    obtain ⟨e, he, h⟩ := bind_eq_ok.mp h
    obtain rfl := Except.ok.inj h
    have hsize := View.values_size hv hvalues
    exact represented_owning hv (hsize ▸ Elements.encode_represents he)

namespace Tensor

theorem quantize_represented {t u : Tensor α} {d : DType} (h : t.quantize d = .ok u) :
    u.Represented := by
  unfold quantize at h
  split at h
  · obtain ⟨v, hv, h⟩ := bind_eq_ok.mp h
    exact View.toTensor_represented (View.of_countable hv) h
  · obtain ⟨values, -, h⟩ := bind_eq_ok.mp h
    exact ofValues_represented h

/-- A transposed tensor is one, as a view or as elements of its own. -/
theorem transpose_represented {t u : Tensor α} {perm : List Nat} {transposed : Transposed α}
    (h : t.transpose perm = .ok transposed) (hu : transposed.toTensor = .ok u) :
    u.Represented := by
  unfold transpose at h
  split at h
  · obtain ⟨u', hu', h⟩ := bind_eq_ok.mp h
    obtain rfl := Except.ok.inj h
    obtain rfl := Except.ok.inj hu
    obtain ⟨values, hvalues, hu⟩ := bind_eq_ok.mp hu'
    obtain ⟨decoded, hdecoded, hu⟩ := bind_eq_ok.mp hu
    obtain ⟨v, hv, hu⟩ := bind_eq_ok.mp hu
    obtain ⟨w, hw, hu⟩ := bind_eq_ok.mp hu
    obtain ⟨values', hvalues', hu⟩ := bind_eq_ok.mp hu
    obtain ⟨e, he, hu⟩ := bind_eq_ok.mp hu
    obtain rfl := Except.ok.inj hu
    have hcount := (View.of_countable hv).transpose hw
    have hsize := View.values_size hcount hvalues'
    exact represented_owning hcount (hsize ▸ Elements.encode_represents he)
  · obtain ⟨v, hv, h⟩ := bind_eq_ok.mp h
    obtain ⟨w, hw, h⟩ := bind_eq_ok.mp h
    obtain rfl := Except.ok.inj h
    exact View.toTensor_represented ((View.of_countable hv).transpose hw) hu

theorem splitPart_represented {t u : Tensor α} {v : View α} {shape : Shape} {dim chunk c : Nat}
    (h : t.splitPart v shape dim chunk c = .ok u) : u.Represented := by
  obtain ⟨values, -, h⟩ := bind_eq_ok.mp h
  exact ofValues_represented h

theorem split_represented {t : Tensor α} {count dim : Nat} {us : List (Tensor α)}
    (h : t.split count dim = .ok us) : ∀ u ∈ us, u.Represented := by
  intro u hu
  obtain ⟨chunk, -, h⟩ := bind_eq_ok.mp h
  split at h
  · obtain ⟨vs, hvs, h⟩ := bind_eq_ok.mp h
    obtain ⟨v, hv, hu⟩ := of_mem_mapM h hu
    obtain ⟨chunk', -, hvs⟩ := bind_eq_ok.mp hvs
    obtain ⟨whole, hwhole, hvs⟩ := bind_eq_ok.mp hvs
    obtain ⟨c, -, hv⟩ := of_mem_mapM hvs hv
    have hcount := (View.of_countable hwhole).follow (s := .narrow (c * chunk') chunk') hv
    exact View.toTensor_represented hcount hu
  · split at h
    · exact absurd h (fail_ne_ok _ _)
    obtain ⟨shape, -, h⟩ := bind_eq_ok.mp h
    obtain ⟨v, -, h⟩ := bind_eq_ok.mp h
    obtain ⟨c, -, hu⟩ := of_mem_mapM h hu
    exact splitPart_represented hu

end Tensor

/-! ## Backends -/

theorem maskedValues_size {v : View α} (hv : v.Countable) {offset len : Nat} {values : Array α}
    (h : maskedValues v offset len = .ok values) : values.size = v.size := by
  obtain ⟨_, -, h⟩ := bind_eq_ok.mp h
  obtain ⟨old, hold, h⟩ := bind_eq_ok.mp h
  obtain rfl := Except.ok.inj h
  rw [Array.size_mapIdx]
  exact View.values_size hv hold

theorem Backend.quantize_represented {be : Backend α} {v : View α} (hv : v.Countable) {d : DType}
    {offset len : Nat} {t : Tensor α} (h : be.quantize v d offset len = .ok t) :
    t.Represented := by
  unfold Backend.quantize at h
  split at h
  · obtain ⟨values, -, h⟩ := bind_eq_ok.mp h
    exact ofValues_represented h
  · obtain ⟨values, hvalues, h⟩ := bind_eq_ok.mp h
    obtain ⟨e, he, h⟩ := bind_eq_ok.mp h
    have he := maskedValues_size hv hvalues ▸ Vector.encodeBlocks_represents he
    obtain ⟨n, hn, h⟩ := bind_eq_ok.mp h
    obtain ⟨-, rfl⟩ := Word.check_eq_ok.mp hn
    obtain ⟨_, -, h⟩ := bind_eq_ok.mp h
    split at h
    · obtain rfl := Except.ok.inj h
      exact represented_owning hv he
    · exact absurd h (fail_ne_ok _ _)

theorem Reference.batchDotProduct_keeps (a b : View α) (w : BatchWindow) (result : Shape) :
    (Reference.batchDotProduct a b w result).Keeps Elements.layout :=
  keeps_bind (keeps_ofOutcome _) fun _ => keeps_forM fun _ _ => keeps_forM fun _ _ =>
    keeps_bind (keeps_ofOutcome _) fun d => Elements.write_keeps _ #[d]

theorem Vector.batchRowInto_keeps (p : Pool) (result : Shape) (a b : View α) (w : BatchWindow)
    (i : Nat) : (Vector.batchRowInto p result a b w i).Keeps Elements.layout := by
  intro e
  unfold Vector.batchRowInto
  dsimp only
  split
  · split <;> simp [Elements.layout]
  · split
    · exact Elements.write_keeps ..
    · rfl

theorem Vector.batchDotProduct_keeps (p : Pool) (a b : View α) (w : BatchWindow) (result : Shape) :
    (Vector.batchDotProduct p a b w result).Keeps Elements.layout :=
  keeps_bind (keeps_ofOutcome _) fun _ => keeps_bind (keeps_ofOutcome _) fun _ =>
    keeps_forM fun i _ => batchRowInto_keeps p result a b w i

theorem Backend.batchDotProduct_keeps {be : Backend α} (hbe : be.InPlace) (a b : View α)
    (w : BatchWindow) (result : Shape) :
    (be.batchDotProduct a b w result).Keeps Elements.layout := by
  cases be with
  | reference =>
    exact keeps_bind (Reference.batchDotProduct_keeps a b w result) fun _ => keeps_pure _
  | vector p => exact keeps_bind (Vector.batchDotProduct_keeps p a b w result) fun _ => keeps_pure _
  | native n =>
    have hcalls (cs : List GemmCall) (e : Elements α) :
        (cs.foldl (fun r c => n.table.run c a.elems b.elems r) e).layout = e.layout := by
      induction cs generalizing e with
      | nil => rfl
      | cons c cs ih => exact (ih _).trans (hbe c a.elems b.elems e)
    intro e
    show (left (n.batchDotProduct a b w result e)).layout = e.layout
    unfold Native.batchDotProduct
    split
    · rfl
    split
    · exact keeps_bind (Vector.batchDotProduct_keeps n.pool a b w result) (fun _ => keeps_pure _) e
    dsimp only
    split
    · rfl
    · exact hcalls _ e

theorem Tensor.matmul_represented {be : Backend α} (hbe : be.InPlace) {a b t : Tensor α}
    (h : Tensor.matmul be a b = .ok t) : t.Represented := by
  unfold Tensor.matmul at h
  dsimp only at h
  split at h
  · exact absurd h (fail_ne_ok _ _)
  obtain ⟨m, -, h⟩ := bind_eq_ok.mp h
  obtain ⟨k, -, h⟩ := bind_eq_ok.mp h
  obtain ⟨k', -, h⟩ := bind_eq_ok.mp h
  obtain ⟨n, -, h⟩ := bind_eq_ok.mp h
  split at h
  · exact absurd h (fail_ne_ok _ _)
  obtain ⟨shape, -, h⟩ := bind_eq_ok.mp h
  obtain ⟨out, hout, h⟩ := bind_eq_ok.mp h
  obtain ⟨transposed, -, h⟩ := bind_eq_ok.mp h
  obtain ⟨b', -, h⟩ := bind_eq_ok.mp h
  obtain ⟨av, -, h⟩ := bind_eq_ok.mp h
  obtain ⟨bv, -, h⟩ := bind_eq_ok.mp h
  have hkeeps := exec_snd _ out ▸ Tensor.update_keeps
    (Backend.batchDotProduct_keeps hbe av bv (.full k n) shape) out
  split at h
  · rename_i heq
    obtain rfl := Except.ok.inj h
    rw [heq] at hkeeps
    refine (Tensor.zeros_represented hout).of_outline ?_ hkeeps
    rw [(Tensor.zeros_eq_ok hout).2.2]
    rfl
  · cases h

/-! ## Runs -/

theorem Operand.view_countable {ts : List (Tensor α)} {o : Operand} {v : View α}
    (hv : o.view ts = .ok v) : v.Countable := by
  obtain ⟨t, -, hv⟩ := bind_eq_ok.mp hv
  obtain ⟨v₀, hv₀, hv⟩ := bind_eq_ok.mp hv
  exact (View.of_countable hv₀).followAll hv

/-- Whatever is made of represented tensors is represented. -/
theorem Make.run_represented {ts : List (Tensor α)} (hts : ∀ t ∈ ts, t.Represented) {m : Make α}
    {us : List (Tensor α)} (h : m.run ts = .ok us) : ∀ u ∈ us, u.Represented := by
  have hone {x : Outcome (Tensor α)} (hx : ∀ u, x = .ok u → u.Represented)
      (hus : (do return [← x]) = .ok us) : ∀ u ∈ us, u.Represented := by
    obtain ⟨u, hu, hus⟩ := bind_eq_ok.mp hus
    obtain rfl := Except.ok.inj hus
    exact List.forall_mem_singleton.mpr (hx u hu)
  cases m with
  | zeros d shape => exact hone (fun u => zeros_represented) h
  | ones shape => exact hone (fun u => ones_represented) h
  | new values shape => exact hone (fun u => new_represented) h
  | ofValues d shape values => exact hone (fun u => ofValues_represented) h
  | ofMapping bytes d shape dataOffset scalesOffset =>
    exact hone (fun u => ofMapping_represented) h
  | share i =>
    obtain ⟨t, ht, h⟩ := bind_eq_ok.mp h
    obtain rfl := Except.ok.inj h
    exact List.forall_mem_singleton.mpr (hts t (Buffer.mem_of_read ht)).share
  | reshape i shape =>
    obtain ⟨t, ht, h⟩ := bind_eq_ok.mp h
    exact hone (fun u => (hts t (Buffer.mem_of_read ht)).reshape) h
  | quantize i d =>
    obtain ⟨t, ht, h⟩ := bind_eq_ok.mp h
    exact hone (fun u => quantize_represented) h
  | transpose i perm =>
    obtain ⟨t, ht, h⟩ := bind_eq_ok.mp h
    obtain ⟨transposed, htransposed, h⟩ := bind_eq_ok.mp h
    exact hone (fun u => transpose_represented htransposed) h
  | split i count dim =>
    obtain ⟨t, ht, h⟩ := bind_eq_ok.mp h
    exact split_represented h
  | toTensor src =>
    obtain ⟨v, hv, h⟩ := bind_eq_ok.mp h
    exact hone (fun u => View.toTensor_represented (Operand.view_countable hv)) h
  | encode be src d offset len =>
    obtain ⟨v, hv, h⟩ := bind_eq_ok.mp h
    exact hone (fun u => Backend.quantize_represented (Operand.view_countable hv)) h
  | matmul be hbe i j =>
    obtain ⟨a, -, h⟩ := bind_eq_ok.mp h
    obtain ⟨b, -, h⟩ := bind_eq_ok.mp h
    exact hone (fun u => matmul_represented hbe) h

namespace Edit

theorem run_keeps (ts : List (Tensor α)) (e : Edit α) : (e.run ts).Keeps Tensor.outline := by
  cases e with
  | set v index => exact Tensor.set_keeps v index
  | clear => exact Tensor.clear_keeps
  | copyFrom src source start len =>
    exact keeps_bind (keeps_ofOutcome _) fun v => Tensor.copyFrom_keeps v source start len
  | part path m => exact Tensor.updatePart_keeps path (m.run ts)

/-- Storage that may not be written is not. -/
theorem run_readOnly (ts : List (Tensor α)) (e : Edit α) {t : Tensor α} (h : t.isReadOnly) :
    left (e.run ts t) = t := by
  obtain ⟨f, hf⟩ : ∃ f, t.storage.writable = .error f := by
    obtain ⟨shape, storage⟩ := t
    cases storage with
    | owned e => cases h
    | shared e | mapped m => exact ⟨_, rfl⟩
  have hupdate (u : Update (Elements α) Unit) : left (Tensor.update u t) = t := by
    rw [Tensor.update, hf]
    rfl
  have htarget : t.target = .error f := by
    rw [Tensor.target, hf]
    rfl
  have hcopy (v : View α) (source start len : Nat) :
      left (Tensor.copyFrom v source start len t) = t := by
    rw [Tensor.copyFrom, htarget]
    rfl
  cases e with
  | set v index =>
    show left (Tensor.set v index t) = t
    unfold Tensor.set
    split
    · rfl
    · exact hupdate _
  | clear => exact hupdate (modify Elements.fillZero)
  | copyFrom src source start len =>
    show left ((ofOutcome (src.view ts) >>= fun v => Tensor.copyFrom v source start len) t) = t
    cases src.view ts with
    | error f' => rfl
    | ok v => exact hcopy v source start len
  | part path m =>
    show left (Tensor.updatePart path (m.run ts) t) = t
    rw [Tensor.updatePart, htarget]
    rfl

theorem run_represented (ts : List (Tensor α)) (e : Edit α) {t : Tensor α} (h : t.Represented) :
    (left (e.run ts t)).Represented := by
  cases hr : t.isReadOnly with
  | false => exact h.of_outline hr (run_keeps ts e t)
  | true => rwa [run_readOnly ts e hr]

end Edit

/-- An index vector of the shape leads to a value, any other is refused. -/
theorem Tensor.Represented.get {t : Tensor α} (h : t.Represented) (index : List Nat) :
    (InRange t.shape.dims index → ∃ x, t.get index = .ok x) ∧
      (¬InRange t.shape.dims index → ∃ err, t.get index = .error (.error err)) := by
  constructor
  · intro hi
    rw [Tensor.get, offsetOf_eq hi h.numel]
    exact Elements.exists_get h.elements.scaled
      (Nat.lt_of_lt_of_le (linear_lt hi) h.elements.le_size)
  · intro hi
    obtain ⟨err, herr⟩ := offsetOf_error h.numel hi
    exact ⟨err, by rw [Tensor.get, herr]; rfl⟩

namespace Workspace

theorem step_represented {w : Workspace α} (hw : w.Keeps Tensor.Represented) (c : Command α) :
    (w.step c).Keeps Tensor.Represented :=
  step_keeps hw c (fun _ _ _ hus => Make.run_represented hw.tensors hus)
    (fun _ e _ t ht => e.run_represented w.tensors (hw.tensors t ht))
    (fun _ _ _ => zeros_represented)

theorem run_represented (capacity : Nat) (cs : List (Command α)) :
    ((start capacity).run cs).Keeps Tensor.Represented :=
  run_of_step (C := fun _ _ => True) (I := fun w => w.Keeps Tensor.Represented)
    (fun _ c hw _ => step_represented hw c) (keeps_start _ capacity)
    (along_of_forall (fun _ _ => trivial) _ cs)

/-- However a tensor was made and written: its storage holds exactly the blocks of
its shape, one scale to each if it is quantized, and takes exactly their bytes;
it can be read at each index vector of its shape, and a read at any other is
refused. -/
theorem run_tensors (capacity : Nat) (cs : List (Command α)) :
    ∀ t ∈ ((start capacity : Workspace α).run cs).tensors,
      t.shape.numel = .ok t.shape.size ∧
      t.elements.dtype = t.dtype ∧
      t.elements.size = t.dtype.blocksFor t.shape.size * t.dtype.blockSize ∧
      t.elements.scaleCount =
        (if t.dtype.isQuantized then t.dtype.blocksFor t.shape.size else 0) ∧
      t.nbytes = t.dtype.storageBytes t.shape.size ∧
      ∀ index, (InRange t.shape.dims index → ∃ x, t.get index = .ok x) ∧
        (¬InRange t.shape.dims index → ∃ err, t.get index = .error (.error err)) := by
  intro t ht
  have h := (run_represented capacity cs).tensors t ht
  exact ⟨numel_eq h.numel, h.elements.dtype, h.elements.size, h.elements.scaleCount, h.nbytes,
    h.get⟩

/-- Three rows of nibbles in two blocks, and a copy of the first row. -/
def copyRow : List (Command Binary32) :=
  [.make (.zeros .q4 ⟨[3, 20], by decide, by decide⟩), .make (.toTensor ⟨0, [.slice 0]⟩),
    .release 0]

/-- The copy, which is a block of its own. -/
def copiedRow : Tensor Binary32 :=
  .owning ⟨[20], by decide, by decide⟩ (.q4 (.replicate 16 Elements.zeroNibbles) #[0])

theorem run_tensors_copyRow :
    copiedRow ∈ ((start 100).run copyRow).tensors ∧ copiedRow.nbytes = 20 ∧
      (∃ x, copiedRow.get [19] = .ok x) ∧ ∃ err, copiedRow.get [20] = .error (.error err) := by
  have hmem : copiedRow ∈ ((start 100).run copyRow).tensors := List.mem_singleton.mpr rfl
  obtain ⟨-, -, -, -, hbytes, hget⟩ := run_tensors 100 copyRow copiedRow hmem
  refine ⟨hmem, hbytes, (hget [19]).1 ⟨by decide, trivial⟩, (hget [20]).2 fun hi => ?_⟩
  exact absurd hi.1 (by decide)

end Workspace

end BlockTensor
