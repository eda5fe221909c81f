import Mathlib.Data.List.Nodup
import Mathlib.Data.List.Perm.Basic
import BlockTensor.Proofs.Index

/-!
# Permuted axes

`IsPermutation perm rank` is what the check of a permutation accepts
(`badAxis?_eq_none`, `permute_of_isPermutation`). `unpermute perm index` is the
index vector whose entries, read in the order `perm`, are `index`:

* `inRange_unpermute`: it is in range of the dimensions that were permuted;
* `position_permuted`: it has under some strides the position that `index` has
  under the permuted ones;
* `permute_ensures`: permuting a shape does not abort;
* `unpermute_permuted`, `unpermute_inverse`: reading in the order `perm` undoes it,
  and `inverse perm` is the order in which it is undone.
-/

namespace BlockTensor.Shape

open Outcome

/-- `perm` names every axis below `rank` once. -/
structure IsPermutation (perm : List Nat) (rank : Nat) : Prop where
  length : perm.length = rank
  lt : ∀ a ∈ perm, a < rank
  nodup : perm.Nodup

/-- The index vector whose entries in the order `perm` are those of `index`. -/
def unpermute (perm index : List Nat) : List Nat :=
  (List.range perm.length).map fun a => index.getD (perm.idxOf a) 0

theorem badAxis?_eq_none {rank : Nat} {seen perm : List Nat} (h : badAxis? rank seen perm = none) :
    (∀ a ∈ perm, a < rank ∧ a ∉ seen) ∧ perm.Nodup := by
  induction perm generalizing seen with
  | nil => exact ⟨fun a ha => absurd ha List.not_mem_nil, List.nodup_nil⟩
  | cons b perm ih =>
    rw [badAxis?] at h
    split at h
    · cases h
    rename_i hb
    obtain ⟨hlt, hnd⟩ := ih h
    refine ⟨fun a ha => ?_, List.nodup_cons.mpr ⟨fun hm => ?_, hnd⟩⟩
    · rcases List.mem_cons.mp ha with rfl | ha
      · exact ⟨by omega, fun hs => hb (.inr hs)⟩
      · exact ⟨(hlt a ha).1, fun hs => (hlt a ha).2 (List.mem_cons_of_mem _ hs)⟩
    · exact (hlt b hm).2 List.mem_cons_self

theorem badAxis?_of_nodup {rank : Nat} {seen perm : List Nat}
    (h : ∀ a ∈ perm, a < rank ∧ a ∉ seen) (hn : perm.Nodup) : badAxis? rank seen perm = none := by
  induction perm generalizing seen with
  | nil => rfl
  | cons b perm ih =>
    obtain ⟨hb, hn⟩ := List.nodup_cons.mp hn
    obtain ⟨hlt, hseen⟩ := h b List.mem_cons_self
    rw [badAxis?, if_neg (by rintro (hle | hm); exacts [Nat.not_le.mpr hlt hle, hseen hm])]
    refine ih (fun a ha => ⟨(h a (List.mem_cons_of_mem _ ha)).1, fun hm => ?_⟩) hn
    rcases List.mem_cons.mp hm with rfl | hm
    · exact hb ha
    · exact (h a (List.mem_cons_of_mem _ ha)).2 hm

variable {perm : List Nat} {rank : Nat}

theorem IsPermutation.perm_range (h : IsPermutation perm rank) : perm.Perm (List.range rank) := by
  refine (List.subperm_of_subset h.nodup fun a ha => ?_).perm_of_length_le ?_
  · exact List.mem_range.mpr (h.lt a ha)
  · exact Nat.le_of_eq (List.length_range.trans h.length.symm)

theorem length_permuted (perm xs : List Nat) : (permuted perm xs).length = perm.length :=
  List.length_map ..

theorem length_unpermute (perm index : List Nat) : (unpermute perm index).length = perm.length := by
  simp [unpermute]

theorem eq_map_getD (xs : List Nat) : xs = (List.range xs.length).map fun a => xs.getD a 0 := by
  apply List.ext_getElem
  · simp
  · intro i h _
    simp [List.getD_eq_getElem?_getD, h]

theorem permuted_perm {xs : List Nat} (h : IsPermutation perm rank) (hx : xs.length = rank) :
    (permuted perm xs).Perm xs := by
  conv_rhs => rw [eq_map_getD xs, hx]
  exact h.perm_range.map _

/-- Reading the axes in the order `perm` undoes `unpermute`. -/
theorem permuted_unpermute {index : List Nat} (h : IsPermutation perm rank)
    (hi : index.length = rank) : permuted perm (unpermute perm index) = index := by
  apply List.ext_getElem
  · rw [length_permuted, h.length, hi]
  · intro k hk hk'
    have hp : k < perm.length := by rwa [length_permuted] at hk
    have hr : perm[k] < perm.length := h.length ▸ h.lt _ (List.getElem_mem hp)
    simp only [permuted, List.getElem_map, List.getD_eq_getElem?_getD, unpermute,
      List.getElem?_map, List.getElem?_range hr, Option.map_some, Option.getD_some,
      h.nodup.idxOf_getElem k hp, List.getElem?_eq_getElem hk']

theorem inRange_iff_getD {dims index : List Nat} :
    InRange dims index ↔
      index.length = dims.length ∧ ∀ k < dims.length, index.getD k 0 < dims.getD k 0 := by
  induction dims generalizing index with
  | nil => cases index <;> simp [InRange]
  | cons d dims ih =>
    cases index with
    | nil => simp [InRange]
    | cons i index =>
      rw [inRange_cons, ih, List.length_cons, List.length_cons, Nat.add_right_cancel_iff]
      constructor
      · rintro ⟨hi, hl, hk⟩
        refine ⟨hl, fun k hk' => ?_⟩
        cases k with
        | zero => exact hi
        | succ k => exact hk k (Nat.lt_of_succ_lt_succ hk')
      · rintro ⟨hl, hk⟩
        exact ⟨hk 0 (Nat.zero_lt_succ _), hl, fun k hk' => hk (k + 1) (Nat.succ_lt_succ hk')⟩

theorem inRange_of_permuted {dims index : List Nat} (h : IsPermutation perm rank)
    (hd : dims.length = rank) (hi : index.length = rank)
    (hr : InRange (permuted perm dims) (permuted perm index)) : InRange dims index := by
  rw [inRange_iff_getD] at hr ⊢
  refine ⟨hi.trans hd.symm, fun a ha => ?_⟩
  have hm : a ∈ perm := h.perm_range.mem_iff.mpr (List.mem_range.mpr (hd ▸ ha))
  obtain ⟨k, hk, rfl⟩ := List.getElem_of_mem hm
  have := hr.2 k (by rwa [length_permuted])
  simpa [permuted, List.getD_eq_getElem?_getD, hk] using this

/-- An index vector of a permuted shape comes from one of the shape. -/
theorem inRange_unpermute {dims index : List Nat} (h : IsPermutation perm rank)
    (hd : dims.length = rank) (hr : InRange (permuted perm dims) index) :
    InRange dims (unpermute perm index) := by
  have hi : index.length = rank := by rw [hr.length_eq, length_permuted, h.length]
  refine inRange_of_permuted h hd (by rw [length_unpermute, h.length]) ?_
  rwa [permuted_unpermute h hi]

theorem position_eq_sum_map {strides index : List Nat} (h : index.length = strides.length) :
    View.position strides index =
      ((List.range strides.length).map fun a => index.getD a 0 * strides.getD a 0).sum := by
  rw [position_eq_sum]
  conv_lhs => rw [eq_map_getD index, eq_map_getD strides, h, List.zipWith_map, List.zipWith_self]

/-- Permuted strides find at `index` what the strides find at the index vector
that `index` comes from. -/
theorem position_permuted {strides index : List Nat} (h : IsPermutation perm rank)
    (hs : strides.length = rank) (hi : index.length = rank) :
    View.position (permuted perm strides) index =
      View.position strides (unpermute perm index) := by
  have hu : (unpermute perm index).length = strides.length := by
    rw [length_unpermute, h.length, hs]
  conv_lhs => rw [← permuted_unpermute h hi]
  rw [position_eq_sum, position_eq_sum_map hu, permuted, permuted, List.zipWith_map,
    List.zipWith_self, hs]
  exact (h.perm_range.map _).sum_nat

theorem volume_perm {ds es : List Nat} (h : ds.Perm es) : volume ds = volume es := by
  induction h with
  | nil => rfl
  | cons d _ ih => rw [volume_cons, volume_cons, ih]
  | swap d e ds => simp only [volume_cons, Nat.mul_left_comm]
  | trans _ _ ih₁ ih₂ => exact ih₁.trans ih₂

theorem volume_tail_le {dims : List Nat} (h : ∀ d ∈ dims, 0 < d) :
    volume dims.tail ≤ volume dims := by
  cases dims with
  | nil => simp
  | cons d dims => exact Nat.le_mul_of_pos_left _ (h d List.mem_cons_self)

/-- Dimensions whose volume is a machine word are those of a shape. -/
theorem ofPositive_eq {dims : List Nat} (hn : dims ≠ []) (hp : ∀ d ∈ dims, 0 < d)
    (hb : volume dims < Word.bound) : ofPositive dims hn hp = .ok ⟨dims, hn, hp⟩ := by
  rw [ofPositive, Word.check_of_lt (Nat.lt_of_le_of_lt (volume_tail_le hp) hb)]
  rfl

theorem assert_eq {dims : List Nat} (hn : dims ≠ []) (hp : ∀ d ∈ dims, 0 < d)
    (hb : volume dims < Word.bound) : assert dims = .ok ⟨dims, hn, hp⟩ := by
  rw [assert, dif_pos ⟨hn, hp⟩, ofPositive_eq hn hp hb]

theorem dim_eq {s : Shape} {axis : Nat} (h : axis < s.rank) :
    s.dim axis = .ok (s.dims.getD axis 0) := by
  have h : axis < s.dims.length := h
  rw [dim, List.getElem?_eq_getElem h]
  simp [List.getD_eq_getElem?_getD, h]

theorem ofDims_eq_ok {dims : List Nat} {s : Shape} (h : ofDims dims = .ok s) :
    s.dims = dims := by
  unfold ofDims at h
  split at h
  · exact absurd h (fail_ne_ok _ _)
  split at h
  · obtain ⟨_, -, h⟩ := bind_eq_ok.mp h
    exact Except.ok.inj h ▸ rfl
  · exact absurd h (fail_ne_ok _ _)

theorem drop_dims {shape sub : Shape} {n : Nat} (h : shape.drop n = .ok sub) :
    sub.dims = shape.dims.drop n := by
  unfold Shape.drop at h
  split at h
  · exact absurd h (fail_ne_ok _ _)
  unfold Shape.assert at h
  split at h
  · obtain ⟨_, -, h⟩ := bind_eq_ok.mp h
    exact Except.ok.inj h ▸ rfl
  · exact absurd h (stop_ne_ok _ _)

/-- The parts along the leading dimension make up the whole. -/
theorem first_mul_volume (shape : Shape) :
    shape.first * volume (shape.dims.drop 1) = shape.size := by
  obtain ⟨d, dims, hd⟩ := List.exists_cons_of_ne_nil shape.nonempty
  rw [Shape.size, Shape.first]
  simp only [hd, List.head_cons, List.drop_succ_cons, List.drop_zero, volume_cons]

theorem first_mul_size {shape sub : Shape} (h : shape.drop 1 = .ok sub) :
    shape.first * sub.size = shape.size := by
  rw [← shape.first_mul_volume, Shape.size, drop_dims h]

/-- A shape with another leading dimension. -/
theorem withDim_zero_eq {s : Shape} {d count : Nat} {dims : List Nat} (hd : s.dims = d :: dims)
    (hc : 0 < count) (hb : volume (count :: dims) < Word.bound) :
    ∃ s', s.withDim 0 count = .ok s' ∧ s'.dims = count :: dims := by
  have hrank : ¬s.rank ≤ 0 := by simp [rank, hd]
  have hset : s.dims.set 0 count = count :: dims := by rw [hd]; rfl
  have hn : ¬count :: dims = [] := List.cons_ne_nil _ _
  have hp : ∀ e ∈ count :: dims, 0 < e := by
    intro e he
    rcases List.mem_cons.mp he with rfl | he
    · exact hc
    · exact s.pos e (hd ▸ List.mem_cons_of_mem _ he)
  refine ⟨⟨count :: dims, hn, hp⟩, ?_, rfl⟩
  rw [withDim, if_neg hrank, hset, ofDims, dif_neg hn, dif_pos hp, ofPositive_eq hn hp hb]

theorem numel_eq {s : Shape} (h : s.size < Word.bound) : s.numel = .ok s.size :=
  Word.check_of_lt h

/-- A shape is permuted by the permutations of its axes and by nothing else. -/
theorem permute_ensures (s : Shape) (perm : List Nat) (hb : s.size < Word.bound) :
    Ensures (s.permute perm) fun s' =>
      IsPermutation perm s.rank ∧ s'.dims = permuted perm s.dims := by
  rw [permute]
  split
  · exact ensures_fail _ _
  rename_i hl
  split
  · exact ensures_fail _ _
  rename_i hbad
  obtain ⟨hlt, hnd⟩ := badAxis?_eq_none hbad
  have hp : IsPermutation perm s.rank := ⟨Decidable.not_not.mp hl, fun a ha => (hlt a ha).1, hnd⟩
  have hperm := permuted_perm hp (rfl : s.dims.length = s.rank)
  rw [assert_eq (fun h => s.nonempty (List.Perm.eq_nil (h ▸ hperm.symm)))
    (fun d hd => s.pos d (hperm.mem_iff.mp hd)) (volume_perm hperm ▸ hb)]
  exact ensures_ok ⟨hp, rfl⟩

theorem permute_of_isPermutation {s : Shape} (h : IsPermutation perm s.rank)
    (hb : s.size < Word.bound) : ∃ s', s.permute perm = .ok s' := by
  have hperm := permuted_perm h (rfl : s.dims.length = s.rank)
  have hassert := assert_eq (fun hn => s.nonempty (List.Perm.eq_nil (hn ▸ hperm.symm)))
    (fun d hd => s.pos d (hperm.mem_iff.mp hd)) (volume_perm hperm ▸ hb)
  rw [permute, if_neg (not_not_intro h.length),
    badAxis?_of_nodup (fun a ha => ⟨h.lt a ha, List.not_mem_nil⟩) h.nodup]
  exact ⟨_, hassert⟩

/-! ## The inverse -/

/-- The order that puts permuted axes back in their places. -/
def inverse (perm : List Nat) : List Nat := (List.range perm.length).map perm.idxOf

theorem permuted_inverse (perm xs : List Nat) :
    permuted (inverse perm) xs = unpermute perm xs := List.map_map ..

theorem IsPermutation.inverse (h : IsPermutation perm rank) :
    IsPermutation (inverse perm) rank where
  length := by rw [Shape.inverse, List.length_map, List.length_range, h.length]
  lt a ha := by
    obtain ⟨b, hb, rfl⟩ := List.mem_map.mp ha
    rw [h.length, ← h.perm_range.mem_iff] at hb
    exact h.length ▸ List.idxOf_lt_length_of_mem hb
  nodup := by
    refine List.Nodup.map_on (fun a ha b hb hab => ?_) List.nodup_range
    rw [h.length, ← h.perm_range.mem_iff] at ha hb
    exact (List.idxOf_inj ha).mp hab

/-- `unpermute` undoes reading the axes in the order `perm`. -/
theorem unpermute_permuted {xs : List Nat} (h : IsPermutation perm rank) (hx : xs.length = rank) :
    unpermute perm (permuted perm xs) = xs := by
  conv_rhs => rw [eq_map_getD xs, hx, ← h.length]
  refine List.map_congr_left fun a ha => ?_
  rw [h.length, ← h.perm_range.mem_iff] at ha
  have hlt := List.idxOf_lt_length_of_mem ha
  simp only [permuted, List.getD_eq_getElem?_getD, List.getElem?_map,
    List.getElem?_eq_getElem hlt, Option.map_some, Option.getD_some, List.getElem_idxOf]

theorem unpermute_inverse {xs : List Nat} (h : IsPermutation perm rank) (hx : xs.length = rank) :
    unpermute (inverse perm) xs = permuted perm xs := by
  have hback := permuted_unpermute h.inverse hx
  rw [permuted_inverse] at hback
  have hlen : (unpermute (inverse perm) xs).length = rank := by
    rw [length_unpermute, h.inverse.length]
  rw [← permuted_unpermute h hlen, hback]

/-- Each axis that `perm` names is sent by the inverse to the place of its name. -/
theorem permuted_inverse_self (h : IsPermutation perm rank) :
    permuted perm (inverse perm) = List.range rank := by
  have hrange : Shape.inverse perm = unpermute perm (List.range rank) := by
    refine List.map_congr_left fun a ha => ?_
    rw [h.length, ← h.perm_range.mem_iff] at ha
    have hlt : perm.idxOf a < rank := h.length ▸ List.idxOf_lt_length_of_mem ha
    simp [List.getD_eq_getElem?_getD, hlt]
  rw [hrange, permuted_unpermute h List.length_range]

end BlockTensor.Shape
