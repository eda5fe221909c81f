import BlockTensor.Proofs.PaddedWrites
import BlockTensor.Proofs.Representation
import BlockTensor.Proofs.ViewRange

/-!
# Padding in every run

A quantized tensor whose elements end inside a block is followed by zeros however
it was made and written (`Workspace.run_padding`), as long as each copy of encoded
elements to the end of a view stops on a block of the tensor that is viewed or with
it (`Operand.StopsAt`). A copy of a view that stops elsewhere takes the rest of its
last block along (`toTensor_copies_rest`).
-/

namespace BlockTensor

open Outcome Update Elements Shape

variable {α : Type} [ExactScalar α]

/-- What follows the elements of a quantized tensor is zero. -/
def Tensor.Padded (t : Tensor α) : Prop := t.dtype.isQuantized → t.elements.Padded t.shape.size

/-- The first `n` elements of a view of a quantized tensor stop on a block of the
tensor or with it. -/
def Operand.StopsAt (ts : List (Tensor α)) (o : Operand) (n : Nat) : Prop :=
  ∀ t, ts[o.tensor]? = some t → t.dtype.isQuantized →
    let stop := View.startAt t.shape.dims o.steps + n
    stop % blockSize = 0 ∨ stop = t.shape.size

/-- Encoded elements are copied to the end of a view only if that is where they
stop on a block, and no quantized storage comes from outside. -/
def Make.Careful (ts : List (Tensor α)) : Make α → Prop
  | .ofMapping _ d _ _ _ => d.isQuantized = false
  | .toTensor src => ∀ v, src.view ts = .ok v → src.StopsAt ts v.size
  | _ => True

def PartEdit.Careful (ts : List (Tensor α)) : PartEdit α → Prop
  | .copyFrom src source _ len =>
    ∀ v, src.view ts = .ok v → source + len = v.size → src.StopsAt ts v.size
  | _ => True

def Edit.Careful (ts : List (Tensor α)) : Edit α → Prop
  | .copyFrom src source _ len =>
    ∀ v, src.view ts = .ok v → source + len = v.size → src.StopsAt ts v.size
  | .part _ edit => edit.Careful ts
  | _ => True

def Workspace.Careful (w : Workspace α) : Workspace.Command α → Prop
  | .make m => m.Careful w.tensors
  | .edit _ e => e.Careful w.tensors
  | _ => True

/-! ## Operands -/

namespace Tensor

theorem Represented.view_rangeOf {t : Tensor α} (h : t.Represented) {v : View α}
    (hv : t.view = .ok v) : v.shape = t.shape ∧ v.elems = t.elements ∧ v.RangeOf t.elements 0 := by
  obtain ⟨-, -, rfl⟩ := View.of_eq_ok hv
  have hsize := h.elements.size
  rw [← h.elements.dtype] at hsize
  exact ⟨rfl, rfl, View.isContiguous_iff.mpr rfl, isRange_self h.elements.scaled hsize⟩

end Tensor

/-- A view of a tensor has its encoding, and is a range of it if that is
quantized. -/
theorem Operand.view_rangeOf {ts : List (Tensor α)} (hts : ∀ t ∈ ts, t.Represented) {o : Operand}
    {v : View α} (hv : o.view ts = .ok v) :
    ∃ t ∈ ts, ts[o.tensor]? = some t ∧ v.dtype = t.dtype ∧ v.elems.Scaled ∧
      (t.dtype.isQuantized → v.RangeOf t.elements (View.startAt t.shape.dims o.steps)) := by
  obtain ⟨t, ht, hv⟩ := bind_eq_ok.mp hv
  obtain ⟨v₀, hv₀, hv⟩ := bind_eq_ok.mp hv
  have hr := hts t (Buffer.mem_of_read ht)
  have hget : ts[o.tensor]? = some t := List.getElem?_toArray ▸ Buffer.read_eq_ok.mp ht
  obtain ⟨hshape, helems, hrange⟩ := hr.view_rangeOf hv₀
  obtain ⟨hd, hs⟩ := View.followAll_elems (helems ▸ hr.elements.scaled) hv
  have hd₀ : v₀.dtype = t.dtype := by rw [View.dtype, helems, hr.elements.dtype]
  refine ⟨t, Buffer.mem_of_read ht, hget, hd.trans hd₀, hs, fun hq => ?_⟩
  obtain ⟨-, hfinal⟩ := hrange.followAll (hr.elements.dtype ▸ hq) hv
  rwa [Nat.zero_add, hshape] at hfinal

/-- What follows a view that stops on a block or with its tensor is zero. -/
theorem Operand.view_padded {ts : List (Tensor α)} (hts : ∀ t ∈ ts, t.Represented ∧ t.Padded)
    {o : Operand} {v : View α} (hv : o.view ts = .ok v) (hstop : o.StopsAt ts v.size) :
    v.dtype.isQuantized → v.isContiguous = true ∧ v.elems.Padded v.size := by
  intro hq
  obtain ⟨t, ht, hget, hd, -, hrange⟩ := view_rangeOf (fun t ht => (hts t ht).1) hv
  have hq : t.dtype.isQuantized := hd ▸ hq
  have hrange := hrange hq
  exact ⟨hrange.contiguous, hrange.range.padded ((hts t ht).2 hq) (hstop t hget hq)⟩

/-- All elements of a tensor stop with it. -/
theorem Operand.stopsAt_all (ts : List (Tensor α)) (i : Nat) (v : View α)
    (hv : Operand.view ts ⟨i, []⟩ = .ok v) : Operand.StopsAt ts ⟨i, []⟩ v.size := by
  obtain ⟨t, ht, hv⟩ := bind_eq_ok.mp hv
  obtain ⟨v₀, hv₀, hv⟩ := bind_eq_ok.mp hv
  obtain rfl : v₀ = v := Except.ok.inj hv
  obtain ⟨-, -, rfl⟩ := View.of_eq_ok hv₀
  intro t' ht' _
  have hget : ts[i]? = some t := List.getElem?_toArray ▸ Buffer.read_eq_ok.mp ht
  obtain rfl : t = t' := Option.some.inj (hget.symm.trans ht')
  exact .inr (Nat.zero_add _)

/-- What a copy with care takes along after the elements of a view is zero. -/
theorem Operand.view_copied {ts : List (Tensor α)} (hts : ∀ t ∈ ts, t.Represented ∧ t.Padded)
    {o : Operand} {n : Nat} (ho : ∀ v, o.view ts = .ok v → n = v.size → o.StopsAt ts v.size)
    {v : View α} (hv : o.view ts = .ok v) :
    v.elems.Scaled ∧ (v.dtype.isQuantized → n = v.size → v.elems.Padded v.size) := by
  obtain ⟨-, -, -, -, hs, -⟩ := view_rangeOf (fun t ht => (hts t ht).1) hv
  exact ⟨hs, fun hq hn => (o.view_padded hts hv (ho v hv hn) hq).2⟩

/-! ## Making tensors -/

theorem View.toTensor_padded {v : View α}
    (hv : v.dtype.isQuantized → v.isContiguous = true ∧ v.elems.Padded v.size) {u : Tensor α}
    (h : v.toTensor = .ok u) : u.Padded := by
  intro hq
  obtain ⟨hc, hpad⟩ := hv (toTensor_dtype h ▸ hq)
  obtain ⟨hshape, hrange⟩ := toTensor_elements hc hpad.scaled h
  rw [hshape]
  exact hpad.part hrange

namespace Tensor

theorem padded_owning {shape : Shape} {e : Elements α} {n : Nat} (hn : n = shape.size)
    (h : e.dtype.isQuantized → e.Padded n) : (owning shape e).Padded := by
  subst hn
  exact h

theorem padded_of_dtype {t : Tensor α} (h : t.dtype.isQuantized = false) : t.Padded := by
  intro hq
  rw [h] at hq
  cases hq

theorem new_padded {values : Array α} {shape : Shape} {t : Tensor α}
    (h : new values shape = .ok t) : t.Padded := by
  obtain ⟨n, -, h⟩ := bind_eq_ok.mp h
  split at h
  · obtain rfl := Except.ok.inj h
    exact padded_of_dtype rfl
  · exact absurd h (stop_ne_ok _ _)

theorem Padded.share {t : Tensor α} (h : t.Padded) : t.share.Padded := by
  obtain ⟨shape, storage⟩ := t
  cases storage <;> exact h

theorem Padded.reshape {t u : Tensor α} (h : t.Padded) {shape : Shape}
    (hu : t.reshape shape = .ok u) : u.Padded := by
  obtain ⟨n, hn, hu⟩ := bind_eq_ok.mp hu
  obtain ⟨-, rfl⟩ := Word.check_eq_ok.mp hn
  split at hu
  · rename_i hsize
    obtain rfl := Except.ok.inj hu
    intro hq
    rw [← hsize]
    exact h hq
  · exact absurd hu (fail_ne_ok _ _)

theorem zeros_padded {d : DType} {shape : Shape} {t : Tensor α} (h : zeros d shape = .ok t) :
    t.Padded := by
  obtain ⟨-, -, rfl⟩ := zeros_eq_ok h
  have hd : (Elements.zeros d shape.size : Elements α).dtype = d := dtype_zeros d _
  intro hq
  exact Elements.zeros_padded (hd ▸ hq) _ _

variable [ZeroScalar α]

theorem ofValues_padded {d : DType} {shape : Shape} {values : Array α} {t : Tensor α}
    (h : ofValues d shape values = .ok t) : t.Padded := by
  obtain ⟨n, hn, h⟩ := bind_eq_ok.mp h
  obtain ⟨-, rfl⟩ := Word.check_eq_ok.mp hn
  dsimp only at h
  split at h
  · exact absurd h (fail_ne_ok _ _)
  rename_i hsize
  have hsize : values.size = shape.size := Classical.not_not.mp hsize
  obtain ⟨e, he, h⟩ := bind_eq_ok.mp h
  obtain rfl := Except.ok.inj h
  refine padded_owning hsize fun hq => ?_
  rw [← (encode_represents he).dtype] at he
  exact encode_padded hq he

omit [ExactScalar α] [ZeroScalar α] in
theorem chunkLength_mul {t : Tensor α} {count chunk : Nat} (h : t.chunkLength count 0 = .ok chunk) :
    count * chunk = t.shape.first := by
  unfold chunkLength at h
  split at h
  · exact absurd h (fail_ne_ok _ _)
  obtain ⟨size, hsize, h⟩ := bind_eq_ok.mp h
  dsimp only at h
  split at h
  · exact absurd h (fail_ne_ok _ _)
  rename_i hdiv
  obtain rfl := Except.ok.inj h
  have hfirst : size = t.shape.first := by
    obtain ⟨d, dims, hd⟩ := List.exists_cons_of_ne_nil t.shape.nonempty
    simp only [Shape.dim, hd, List.getElem?_cons_zero] at hsize
    simp only [Shape.first, hd, List.head_cons]
    exact (Except.ok.inj hsize).symm
  rw [← hfirst]
  exact Nat.mul_div_cancel' (Nat.dvd_of_mod_eq_zero (by omega))

theorem quantize_padded {t u : Tensor α} (ht : t.Represented ∧ t.Padded) {d : DType}
    (h : t.quantize d = .ok u) : u.Padded := by
  unfold quantize at h
  split at h
  · obtain ⟨v, hv, h⟩ := bind_eq_ok.mp h
    obtain ⟨hshape, helems, hrange⟩ := ht.1.view_rangeOf hv
    refine View.toTensor_padded (fun hq => ⟨hrange.contiguous, ?_⟩) h
    have hq : t.dtype.isQuantized := by rwa [View.dtype, helems, ht.1.elements.dtype] at hq
    rw [helems, View.size, hshape]
    exact ht.2 hq
  · obtain ⟨values, -, h⟩ := bind_eq_ok.mp h
    exact ofValues_padded h

theorem transpose_padded {t u : Tensor α} (ht : t.Represented) {perm : List Nat}
    {transposed : Transposed α} (h : t.transpose perm = .ok transposed)
    (hu : transposed.toTensor = .ok u) : u.Padded := by
  unfold transpose at h
  split at h
  · rename_i hq
    obtain ⟨u', hu', h⟩ := bind_eq_ok.mp h
    obtain rfl := Except.ok.inj h
    obtain rfl := Except.ok.inj hu
    obtain ⟨values, -, hu⟩ := bind_eq_ok.mp hu'
    obtain ⟨decoded, -, hu⟩ := bind_eq_ok.mp hu
    obtain ⟨v, hv, hu⟩ := bind_eq_ok.mp hu
    obtain ⟨w, hw, hu⟩ := bind_eq_ok.mp hu
    obtain ⟨values', hvalues', hu⟩ := bind_eq_ok.mp hu
    obtain ⟨e, he, hu⟩ := bind_eq_ok.mp hu
    obtain rfl := Except.ok.inj hu
    have hsize := View.values_size ((View.of_countable hv).transpose hw) hvalues'
    exact padded_owning hsize fun _ => encode_padded hq he
  · rename_i hq
    obtain ⟨v, hv, h⟩ := bind_eq_ok.mp h
    obtain ⟨w, hw, h⟩ := bind_eq_ok.mp h
    obtain rfl := Except.ok.inj h
    obtain ⟨-, helems, -⟩ := ht.view_rangeOf hv
    obtain ⟨hd, -⟩ := View.follow_elems (s := .transpose perm) (helems ▸ ht.elements.scaled) hw
    refine padded_of_dtype ?_
    rw [View.toTensor_dtype hu, hd, View.dtype, helems, ht.elements.dtype]
    exact Bool.eq_false_iff.mpr hq

/-- Each part of a quantized tensor along its leading dimension stops on a block,
where the next one starts, or with the tensor. -/
theorem split_padded {t : Tensor α} (ht : t.Represented ∧ t.Padded) {count dim : Nat}
    {us : List (Tensor α)} (h : t.split count dim = .ok us) : ∀ u ∈ us, u.Padded := by
  intro u hu
  obtain ⟨chunk, -, h⟩ := bind_eq_ok.mp h
  split at h
  · obtain ⟨vs, hvs, h⟩ := bind_eq_ok.mp h
    obtain ⟨v, hv, hu⟩ := of_mem_mapM h hu
    obtain ⟨chunk', hchunk, hvs⟩ := bind_eq_ok.mp hvs
    obtain ⟨whole, hwhole, hvs⟩ := bind_eq_ok.mp hvs
    obtain ⟨hshape, helems, hrange⟩ := ht.1.view_rangeOf hwhole
    obtain ⟨c, hc, hv⟩ := of_mem_mapM hvs hv
    have hnarrow {first : Nat} {w : View α} (hw : whole.narrow first chunk' = .ok w) :
        w.size = chunk' * volume (t.shape.dims.drop 1) ∧
          w.RangeOf t.elements (first * volume (t.shape.dims.drop 1)) := by
      obtain ⟨hdims, hw⟩ := hrange.narrow hw
      rw [hshape] at hdims hw
      rw [Nat.zero_add] at hw
      obtain ⟨d, dims, hd⟩ := List.exists_cons_of_ne_nil t.shape.nonempty
      exact ⟨by rw [View.size, Shape.size, hdims, hd]; rfl, hw⟩
    obtain ⟨hsize, hpart⟩ := hnarrow hv
    refine View.toTensor_padded (fun hq => ⟨hpart.contiguous, ?_⟩) hu
    have hq : t.dtype.isQuantized := by
      rwa [View.dtype, hpart.range.dtype, ht.1.elements.dtype] at hq
    refine hpart.range.padded (ht.2 hq) ?_
    rw [hsize, ← Nat.add_mul, ← Nat.succ_mul, Nat.succ_eq_add_one]
    have hc := List.mem_range.mp hc
    obtain hlast | hnext := Nat.lt_or_eq_of_le (show c + 1 ≤ count from hc)
    · obtain ⟨w, -, hw⟩ := exists_of_mapM hvs (List.mem_range.mpr hlast)
      have ha := (hnarrow hw).2.range.aligned
      rw [ht.1.elements.dtype, DType.blockSize, if_pos hq] at ha
      exact .inl ha
    · rw [hnext, chunkLength_mul hchunk]
      exact .inr t.shape.first_mul_volume
  · split at h
    · exact absurd h (fail_ne_ok _ _)
    obtain ⟨shape, -, h⟩ := bind_eq_ok.mp h
    obtain ⟨v, -, h⟩ := bind_eq_ok.mp h
    obtain ⟨c, -, hu⟩ := of_mem_mapM h hu
    obtain ⟨values, -, hu⟩ := bind_eq_ok.mp hu
    exact ofValues_padded hu

end Tensor

open Tensor

variable [ZeroScalar α]

theorem Backend.quantize_padded {be : Backend α} {v : View α} (hv : v.Countable) {d : DType}
    {offset len : Nat} {t : Tensor α} (h : be.quantize v d offset len = .ok t) : t.Padded := by
  unfold Backend.quantize at h
  split at h
  · obtain ⟨values, -, h⟩ := bind_eq_ok.mp h
    exact ofValues_padded h
  · obtain ⟨values, hvalues, h⟩ := bind_eq_ok.mp h
    obtain ⟨e, he, h⟩ := bind_eq_ok.mp h
    obtain ⟨n, -, h⟩ := bind_eq_ok.mp h
    obtain ⟨_, -, h⟩ := bind_eq_ok.mp h
    split at h
    · obtain rfl := Except.ok.inj h
      refine padded_owning (maskedValues_size hv hvalues) fun hq => ?_
      rw [← (Vector.encodeBlocks_represents he).dtype] at he
      exact Vector.encodeBlocks_padded hq he
    · exact absurd h (fail_ne_ok _ _)

omit [ZeroScalar α] in
/-- A matrix product is of full precision. -/
theorem Tensor.matmul_padded {be : Backend α} (hbe : be.InPlace) {a b t : Tensor α}
    (h : Tensor.matmul be a b = .ok t) : t.Padded := by
  unfold Tensor.matmul at h
  dsimp only at h
  split at h
  · exact absurd h (fail_ne_ok _ _)
  obtain ⟨m, -, h⟩ := bind_eq_ok.mp h
  obtain ⟨k, -, h⟩ := bind_eq_ok.mp h
  obtain ⟨k', -, h⟩ := bind_eq_ok.mp h
  obtain ⟨n, -, h⟩ := bind_eq_ok.mp h
  split at h
  · exact absurd h (fail_ne_ok _ _)
  obtain ⟨shape, -, h⟩ := bind_eq_ok.mp h
  obtain ⟨out, hout, h⟩ := bind_eq_ok.mp h
  obtain ⟨transposed, -, h⟩ := bind_eq_ok.mp h
  obtain ⟨b', -, h⟩ := bind_eq_ok.mp h
  obtain ⟨av, -, h⟩ := bind_eq_ok.mp h
  obtain ⟨bv, -, h⟩ := bind_eq_ok.mp h
  have hkeeps := exec_snd _ out ▸ Tensor.update_keeps
    (Backend.batchDotProduct_keeps hbe av bv (.full k n) shape) out
  obtain ⟨-, -, rfl⟩ := zeros_eq_ok hout
  split at h
  · rename_i heq
    obtain rfl := Except.ok.inj h
    rw [heq] at hkeeps
    exact padded_of_dtype (by rw [dtype_eq_of_outline rfl hkeeps]; rfl)
  · cases h

/-! ## Runs -/

/-- Whatever is made with care of padded tensors is padded. -/
theorem Make.run_padded {ts : List (Tensor α)} (hts : ∀ t ∈ ts, t.Represented ∧ t.Padded)
    {m : Make α} (hm : m.Careful ts) {us : List (Tensor α)} (h : m.run ts = .ok us) :
    ∀ u ∈ us, u.Padded := by
  have hone {x : Outcome (Tensor α)} (hx : ∀ u, x = .ok u → u.Padded)
      (hus : (do return [← x]) = .ok us) : ∀ u ∈ us, u.Padded := by
    obtain ⟨u, hu, hus⟩ := bind_eq_ok.mp hus
    obtain rfl := Except.ok.inj hus
    exact List.forall_mem_singleton.mpr (hx u hu)
  cases m with
  | zeros d shape => exact hone (fun u => zeros_padded) h
  | ones shape =>
    refine hone (fun u hu => ?_) h
    obtain ⟨n, -, hu⟩ := bind_eq_ok.mp hu
    obtain ⟨_, -, hu⟩ := bind_eq_ok.mp hu
    exact new_padded hu
  | new values shape => exact hone (fun u => new_padded) h
  | ofValues d shape values => exact hone (fun u => ofValues_padded) h
  | ofMapping bytes d shape dataOffset scalesOffset =>
    refine hone (fun u hu => ?_) h
    obtain ⟨n, -, hu⟩ := bind_eq_ok.mp hu
    obtain ⟨mapping, hmapping, hu⟩ := bind_eq_ok.mp hu
    obtain rfl := Except.ok.inj hu
    obtain ⟨rfl, -⟩ := Mapping.make_eq_ok (Nat.zero_mod _) hmapping
    exact padded_of_dtype hm
  | share i =>
    obtain ⟨t, ht, h⟩ := bind_eq_ok.mp h
    obtain rfl := Except.ok.inj h
    exact List.forall_mem_singleton.mpr (hts t (Buffer.mem_of_read ht)).2.share
  | reshape i shape =>
    obtain ⟨t, ht, h⟩ := bind_eq_ok.mp h
    exact hone (fun u => (hts t (Buffer.mem_of_read ht)).2.reshape) h
  | quantize i d =>
    obtain ⟨t, ht, h⟩ := bind_eq_ok.mp h
    exact hone (fun u => quantize_padded (hts t (Buffer.mem_of_read ht))) h
  | transpose i perm =>
    obtain ⟨t, ht, h⟩ := bind_eq_ok.mp h
    obtain ⟨transposed, htransposed, h⟩ := bind_eq_ok.mp h
    exact hone (fun u => transpose_padded (hts t (Buffer.mem_of_read ht)).1 htransposed) h
  | split i count dim =>
    obtain ⟨t, ht, h⟩ := bind_eq_ok.mp h
    exact split_padded (hts t (Buffer.mem_of_read ht)) h
  | toTensor src =>
    obtain ⟨v, hv, h⟩ := bind_eq_ok.mp h
    exact hone (fun u => View.toTensor_padded (src.view_padded hts hv (hm v hv))) h
  | encode be src d offset len =>
    obtain ⟨v, hv, h⟩ := bind_eq_ok.mp h
    exact hone (fun u => Backend.quantize_padded (Operand.view_countable hv)) h
  | matmul be hbe i j =>
    obtain ⟨a, -, h⟩ := bind_eq_ok.mp h
    obtain ⟨b, -, h⟩ := bind_eq_ok.mp h
    exact hone (fun u => matmul_padded hbe) h

omit [ZeroScalar α] in
theorem Tensor.update_padded {u : Update (Elements α) Unit} {shape : Shape} {e : Elements α}
    (hu : u.Preserves (Elements.Padded shape.size)) (he : e.Padded shape.size) :
    (left (Tensor.update u (owning shape e))).elements.Padded shape.size := by
  rw [left_update]
  exact hu e he

omit [ZeroScalar α] in
/-- What keeps the padding of a part keeps that of the tensor. -/
theorem Tensor.updatePart_padded {u : Update (Target α) Unit} {shape : Shape} {e : Elements α}
    (hu : ∀ start layout m, u.Preserves (Target.PaddedAt start layout m))
    (ht : (owning shape e).Represented) (he : e.Padded shape.size) (path : List Target.Step) :
    (left (updatePart path u (owning shape e))).elements.Padded shape.size := by
  have hsize : e.size = e.dtype.blocksFor shape.size * e.dtype.blockSize := ht.elements.size
  cases hpart : (do (← (owning shape e).target).followAll path : Outcome (Target α)) with
  | error f =>
    unfold updatePart
    rw [hpart]
    exact he
  | ok part =>
    rw [left_updatePart hpart]
    obtain ⟨-, -, -, howns⟩ := Target.part_owns (t := owning shape e) hsize hpart
    have hwhole (e' : Elements α) (he' : (owning shape e).storage = .owned e') :
        e.IsRange e'.whole.start shape.size e'.whole.elems := by
      obtain rfl : e = e' := Storage.owned.inj he'
      exact isRange_self he.scaled hsize
    obtain ⟨-, -, -, -, hrange⟩ := Target.part_divides (Segment.ranges_divide e) hwhole hpart
    have hwithin : part.segment.start + part.size ≤ shape.size := howns.within
    have hrun := hu part.segment.start part.elems.layout (shape.size - part.segment.start) part
      ⟨rfl, by omega, rfl, he.part hrange⟩
    obtain ⟨hlayout, hnew⟩ := hrun.elems
    have hput := he.put hrange hlayout hnew
    rw [← hrun.start] at hput
    exact hput

omit [ZeroScalar α] in
/-- A copy to a tensor is one to the part that is all of it. -/
theorem Tensor.copyFrom_eq_part (v : View α) (source start len : Nat) (t : Tensor α) :
    left (Tensor.copyFrom v source start len t) =
      left (updatePart [] (Target.copyFrom v source start len) t) := by
  unfold Tensor.copyFrom updatePart
  cases ht : t.target with
  | error f => rfl
  | ok part =>
    have hpart : (do (← (.ok part : Outcome (Target α))).followAll []) = .ok part := rfl
    cases hcopy : Target.copyFrom v source start len part <;> simp only [hpart, hcopy]

theorem PartEdit.run_preserves {ts : List (Tensor α)}
    (hts : ∀ t ∈ ts, t.Represented ∧ t.Padded) (edit : PartEdit α) (hedit : edit.Careful ts)
    (start : Nat) (layout : DType × Nat × Nat) (m : Nat) :
    (edit.run ts).Preserves (Target.PaddedAt start layout m) := by
  refine edit.run_padded fun src source first len v hcopy hv => ?_
  subst hcopy
  exact src.view_copied hts hedit hv

/-- Whatever is written with care keeps the padding. -/
theorem Edit.run_padded {ts : List (Tensor α)} (hts : ∀ t ∈ ts, t.Represented ∧ t.Padded)
    {edit : Edit α} (hedit : edit.Careful ts) {t : Tensor α} (ht : t.Represented ∧ t.Padded) :
    (left (edit.run ts t)).Padded := by
  cases hr : t.isReadOnly with
  | true =>
    rw [run_readOnly ts edit hr]
    exact ht.2
  | false =>
    have houtline := run_keeps ts edit t
    have hshape : (left (edit.run ts t)).shape = t.shape := (Prod.mk.inj houtline).1
    intro hq
    rw [dtype_eq_of_outline hr houtline] at hq
    rw [hshape]
    obtain ⟨shape, storage⟩ := t
    cases storage with
    | shared e | mapped mapping => cases hr
    | owned e =>
      have he : e.Padded shape.size := ht.2 hq
      cases edit with
      | set v index =>
        show (left (Tensor.set v index (owning shape e))).elements.Padded shape.size
        unfold Tensor.set
        split
        · exact he
        rename_i offset hoffset
        have hlt := offsetOf_lt hoffset
        exact update_padded (write_padded (show offset + 1 ≤ shape.size from hlt)) he
      | clear =>
        exact update_padded (u := modify Elements.fillZero) (fun _ => fillZero_padded) he
      | copyFrom src source start len =>
        show (left ((ofOutcome (src.view ts) >>= fun v => Tensor.copyFrom v source start len)
          (owning shape e))).elements.Padded shape.size
        cases hv : src.view ts with
        | error f => exact he
        | ok v =>
          show (left (Tensor.copyFrom v source start len (owning shape e))).elements.Padded _
          rw [copyFrom_eq_part]
          obtain ⟨hs, hsrc⟩ := src.view_copied hts hedit hv
          exact updatePart_padded (fun _ _ _ => Target.copyFrom_padded hs hsrc) ht.1 he []
      | part path edit =>
        exact updatePart_padded (edit.run_preserves hts hedit) ht.1 he path

namespace Workspace

theorem step_padded {w : Workspace α} (hw : w.Keeps fun t => t.Represented ∧ t.Padded)
    (c : Command α) (hc : w.Careful c) : (w.step c).Keeps fun t => t.Represented ∧ t.Padded := by
  have hts := hw.tensors
  refine step_keeps hw c ?_ ?_ ?_
  · rintro m rfl us hus u hu
    exact ⟨Make.run_represented (fun t ht => (hts t ht).1) hus u hu,
      Make.run_padded hts hc hus u hu⟩
  · rintro i e rfl t ht
    exact ⟨e.run_represented w.tensors (hts t ht).1, Edit.run_padded hts hc (hts t ht)⟩
  · exact fun d shape t ht => ⟨zeros_represented ht, zeros_padded ht⟩

theorem run_padded {capacity : Nat} {cs : List (Command α)}
    (hcs : (start capacity).Along Careful cs) :
    ((start capacity).run cs).Keeps fun t => t.Represented ∧ t.Padded :=
  run_of_step (I := fun w => w.Keeps fun t => t.Represented ∧ t.Padded)
    (fun _ c hw hc => step_padded hw c hc) (keeps_start _ capacity) hcs

/-- With exact arithmetic, in every run in which each copy of encoded elements to
the end of a quantized view stops on a block of the tensor that is viewed or with
it, what follows the elements of every quantized tensor is zero. A tensor made of
any view of a quantized tensor is followed by what follows the view. -/
theorem run_padding [Narrowing] (capacity : Nat) (cs : List (Command ℚ)) :
    ((start capacity).Along Careful cs →
      ∀ t ∈ ((start capacity).run cs).tensors, t.dtype.isQuantized →
        ∀ i, t.shape.size ≤ i → i < t.elements.size → t.elements.get i = .ok 0) ∧
    ∀ (src : Operand) (t u : Tensor ℚ) (v : View ℚ),
      ((start capacity).run cs).tensors[src.tensor]? = some t → t.dtype.isQuantized →
      src.view ((start capacity).run cs).tensors = .ok v → v.toTensor = .ok u →
        u.shape.size = v.size ∧ ∀ i < u.elements.size,
          u.elements.get i = t.elements.get (View.startAt t.shape.dims src.steps + i) := by
  constructor
  · intro hcs t ht hq i hle hlt
    obtain ⟨hr, hpad⟩ := (run_padded hcs).tensors t ht
    rw [get_eq_value hr.elements.scaled hlt, (hpad hq).zero i hle]
  · intro src t u v ht hq hv hu
    have hts := (run_represented capacity cs).tensors
    obtain ⟨t', -, ht', -, hs, hrange⟩ := Operand.view_rangeOf hts hv
    obtain rfl : t = t' := Option.some.inj (ht.symm.trans ht')
    have hview := hrange hq
    obtain ⟨hshape, hcopy⟩ := View.toTensor_elements hview.contiguous hs hu
    refine ⟨by rw [hshape, View.size], fun i hi => ?_⟩
    have hcell := (hview.range.trans hcopy).cell i hi
    rw [Nat.add_zero] at hcell
    exact get_congr hcell

/-- A block with 22 values, one of them changed, and a copy of them. -/
def copyAll [Narrowing] : List (Command ℚ) :=
  [.make (.ofValues .q4 ⟨[22], by decide, by decide⟩ (.replicate 22 7)), .edit 0 (.set 3 [21]),
    .make (.toTensor ⟨0, []⟩)]

theorem run_padding_copyAll :
    letI := Narrowing.integers
    (start 100).Along Careful copyAll ∧ ((start 100).run copyAll).tensors.length = 2 ∧
      (∀ t ∈ ((start 100).run copyAll).tensors, t.elements.get 31 = .ok 0) ∧
      ∃ (t u : Tensor ℚ) (v : View ℚ), ((start 100).run copyAll).tensors[0]? = some t ∧
        Operand.view ((start 100).run copyAll).tensors ⟨0, [.narrow 0 10]⟩ = .ok v ∧
        v.toTensor = .ok u ∧ u.elements.get 10 = t.elements.get 10 := by
  let _ := Narrowing.integers
  have hcareful : (start 100).Along Careful copyAll :=
    ⟨trivial, trivial, Operand.stopsAt_all _ 0, trivial⟩
  obtain ⟨hzero, hrest⟩ := run_padding 100 copyAll
  have hshapes : ∀ t ∈ ((start 100).run copyAll).tensors.map
      (fun t => (t.dtype.isQuantized, t.shape.size, t.elements.size)), t = (true, 22, 32) := by
    decide +kernel
  have hshape (t : Tensor ℚ) (ht : t ∈ ((start 100).run copyAll).tensors) :
      t.dtype.isQuantized = true ∧ t.shape.size = 22 ∧ t.elements.size = 32 := by
    simpa using hshapes _ (List.mem_map_of_mem ht)
  refine ⟨hcareful, by decide +kernel, fun t ht => ?_, ?_⟩
  · obtain ⟨hq, hshape, hsize⟩ := hshape t ht
    exact hzero hcareful t ht hq 31 (by omega) (by omega)
  · have hmade : ((Operand.view ((start 100).run copyAll).tensors ⟨0, [.narrow 0 10]⟩ >>=
        View.toTensor).toOption.map fun u => u.elements.size) = some 32 := by decide +kernel
    cases hu : Operand.view ((start 100).run copyAll).tensors ⟨0, [.narrow 0 10]⟩ >>=
        View.toTensor with
    | error f =>
      rw [hu] at hmade
      cases hmade
    | ok u =>
      rw [hu] at hmade
      have hsize : u.elements.size = 32 := Option.some.inj hmade
      obtain ⟨v, hv, hu⟩ := bind_eq_ok.mp hu
      obtain ⟨t, ht, -⟩ := bind_eq_ok.mp hv
      have hget : ((start 100).run copyAll).tensors[0]? = some t :=
        List.getElem?_toArray ▸ Buffer.read_eq_ok.mp ht
      obtain ⟨hq, -, -⟩ := hshape t (Buffer.mem_of_read ht)
      obtain ⟨-, hcopy⟩ := hrest ⟨0, [.narrow 0 10]⟩ t u v hget hq hv hu
      have hstart : View.startAt t.shape.dims [.narrow 0 10] = 0 := by
        simp [View.startAt, View.Step.start]
      have h := hcopy 10 (by omega)
      rw [hstart] at h
      exact ⟨t, u, v, hget, hv, hu, h⟩

/-- Four rows in one block, and a copy of the first. -/
def copyHalf [Narrowing] : List (Command ℚ) :=
  [.make (.ofValues .q8 ⟨[4, 8], by decide, by decide⟩ (.replicate 32 127)),
    .make (.toTensor ⟨0, [.slice 0]⟩)]

/-- The copy of a row that ends inside a block is followed by the other rows. -/
theorem toTensor_copies_rest :
    letI := Narrowing.integers
    ((start 100).run copyHalf).tensors.map
        (fun t => (t.dtype, t.shape.dims, t.elements.size, t.elements.get 8)) =
      [(.q8, [4, 8], 32, .ok 127), (.q8, [8], 32, .ok 127)] := by
  decide +kernel

end Workspace

end BlockTensor
