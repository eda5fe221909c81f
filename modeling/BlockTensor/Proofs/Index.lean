import Mathlib.Algebra.GroupWithZero.Nat
import BlockTensor.Tensor.View
import BlockTensor.Proofs.Buffer

/-!
# Index vectors in row-major order

`InRange dims index` are the index vectors of a shape, `linear dims index` is
the place of one in row-major order, `unlinear dims p` the one in place `p`:

* `linear_lt`, `linear_unlinear`, `unlinear_linear`: the two are inverse between
  the vectors in range and the places below the volume.
* `position_rowMajor`, `offset_eq`: the place is what the strides of row-major
  order compute, and the checked computation gets it without overflow.
* `visit_eq_mapM`: visiting a shape is mapping `indices dims`, the list of all
  its index vectors in order, which are `unlinear dims p` for each `p`; `visit_at`
  finds what was visited at an index vector in its place.
-/

namespace BlockTensor.Shape

open Outcome

/-- `index` has one entry for each dimension, and below it. -/
def InRange : (dims index : List Nat) → Prop
  | [], [] => True
  | d :: dims, i :: index => i < d ∧ InRange dims index
  | _, _ => False

/-- The place of an index vector in row-major order. -/
def linear : (dims index : List Nat) → Nat
  | _ :: dims, i :: index => i * volume dims + linear dims index
  | _, _ => 0

/-- The index vector in place `p` of row-major order. -/
def unlinear : (dims : List Nat) → (p : Nat) → List Nat
  | [], _ => []
  | _ :: dims, p => p / volume dims :: unlinear dims (p % volume dims)

/-- All index vectors in row-major order. -/
def indices : (dims : List Nat) → List (List Nat)
  | [] => [[]]
  | d :: dims => (List.range d).flatMap fun i => (indices dims).map (i :: ·)

@[simp] theorem inRange_nil : InRange [] [] := trivial

@[simp] theorem inRange_cons {d i : Nat} {dims index : List Nat} :
    InRange (d :: dims) (i :: index) ↔ i < d ∧ InRange dims index := Iff.rfl

theorem InRange.length_eq {dims index : List Nat} (h : InRange dims index) :
    index.length = dims.length := by
  induction dims generalizing index with
  | nil => cases index with
    | nil => rfl
    | cons => exact h.elim
  | cons d dims ih => cases index with
    | nil => exact h.elim
    | cons i index => rw [List.length_cons, List.length_cons, ih h.2]

theorem volume_append (ds es : List Nat) : volume (ds ++ es) = volume ds * volume es := by
  induction ds with
  | nil => simp
  | cons d ds ih => rw [List.cons_append, volume_cons, volume_cons, ih, Nat.mul_assoc]

theorem volume_pos {dims : List Nat} (h : ∀ d ∈ dims, 0 < d) : 0 < volume dims := by
  induction dims with
  | nil => simp
  | cons d dims ih =>
    exact Nat.mul_pos (h d List.mem_cons_self) (ih fun e he => h e (List.mem_cons_of_mem _ he))

theorem linear_lt {dims index : List Nat} (h : InRange dims index) :
    linear dims index < volume dims := by
  induction dims generalizing index with
  | nil => cases index <;> simp [linear]
  | cons d dims ih => cases index with
    | nil => exact h.elim
    | cons i index =>
      calc i * volume dims + linear dims index
          < i * volume dims + volume dims := Nat.add_lt_add_left (ih h.2) _
        _ = (i + 1) * volume dims := (Nat.succ_mul ..).symm
        _ ≤ d * volume dims := Nat.mul_le_mul_right _ h.1

theorem inRange_unlinear {dims : List Nat} {p : Nat} (h : p < volume dims) :
    InRange dims (unlinear dims p) := by
  induction dims generalizing p with
  | nil => trivial
  | cons d dims ih =>
    have hv : 0 < volume dims := Nat.pos_of_mul_pos_left (Nat.zero_lt_of_lt h)
    exact ⟨Nat.div_lt_of_lt_mul (by rwa [Nat.mul_comm]), ih (Nat.mod_lt _ hv)⟩

theorem linear_unlinear {dims : List Nat} {p : Nat} (h : p < volume dims) :
    linear dims (unlinear dims p) = p := by
  induction dims generalizing p with
  | nil => simp only [volume_nil] at h; simp [linear]; omega
  | cons d dims ih =>
    have hv : 0 < volume dims := Nat.pos_of_mul_pos_left (Nat.zero_lt_of_lt h)
    rw [unlinear, linear, ih (Nat.mod_lt _ hv), Nat.mul_comm]
    exact Nat.div_add_mod ..

theorem unlinear_linear {dims index : List Nat} (h : InRange dims index) :
    unlinear dims (linear dims index) = index := by
  induction dims generalizing index with
  | nil => cases index with
    | nil => rfl
    | cons => exact h.elim
  | cons d dims ih => cases index with
    | nil => exact h.elim
    | cons i index =>
      have hl := linear_lt h.2
      have hv : 0 < volume dims := Nat.zero_lt_of_lt hl
      rw [linear, unlinear, Nat.add_comm, Nat.add_mul_div_right _ _ hv, Nat.div_eq_of_lt hl,
        Nat.add_mul_mod_self_right, Nat.mod_eq_of_lt hl, ih h.2, Nat.zero_add]

theorem linear_append {ds es is js : List Nat} (h : InRange ds is) :
    linear (ds ++ es) (is ++ js) = linear ds is * volume es + linear es js := by
  induction ds generalizing is with
  | nil => cases is with
    | nil => simp [linear]
    | cons => exact h.elim
  | cons d ds ih => cases is with
    | nil => exact h.elim
    | cons i is =>
      rw [List.cons_append, List.cons_append, linear, linear, ih h.2, volume_append, Nat.add_mul,
        Nat.mul_assoc, Nat.add_assoc]

theorem InRange.append {ds es is js : List Nat} (h : InRange ds is) (h' : InRange es js) :
    InRange (ds ++ es) (is ++ js) := by
  induction ds generalizing is with
  | nil => cases is with
    | nil => exact h'
    | cons => exact h.elim
  | cons d ds ih => cases is with
    | nil => exact h.elim
    | cons i is => exact ⟨h.1, ih h.2⟩

/-! ## Positions under strides -/

/-- A position is the sum of the indices times the strides. -/
theorem position_eq_sum (strides index : List Nat) :
    View.position strides index = (List.zipWith (· * ·) index strides).sum := by
  rw [View.position, List.sum_eq_foldl_nat]

@[simp] theorem position_nil (index : List Nat) : View.position [] index = 0 := by
  simp [position_eq_sum]

@[simp] theorem position_cons (t i : Nat) (strides index : List Nat) :
    View.position (t :: strides) (i :: index) = i * t + View.position strides index := by
  simp [position_eq_sum]

theorem position_rowMajor (dims index : List Nat) (h : index.length = dims.length) :
    View.position (rowMajor dims) index = linear dims index := by
  induction dims generalizing index with
  | nil => cases index with
    | nil => rfl
    | cons => cases h
  | cons d dims ih => cases index with
    | nil => cases h
    | cons i index => rw [rowMajor, position_cons, linear, ih index (Nat.succ.inj h)]

theorem offsetFrom_eq (axis acc : Nat) {dims strides index : List Nat} (h : InRange dims index)
    (hs : strides.length = dims.length)
    (hb : acc + View.position strides index < Word.bound) :
    offsetFrom axis acc dims strides index = .ok (acc + View.position strides index) := by
  induction dims generalizing axis acc strides index with
  | nil =>
    obtain rfl := List.length_eq_zero_iff.mp hs
    rw [offsetFrom, position_nil, Nat.add_zero]
    simp
  | cons d dims ih =>
    cases index with
    | nil => exact h.elim
    | cons i index =>
    cases strides with
    | nil => cases hs
    | cons t strides =>
      rw [position_cons] at hb ⊢
      rw [offsetFrom, if_neg (Nat.not_le.mpr h.1), Word.mul_of_lt (by omega), ok_bind,
        Word.add_of_lt (by omega), ok_bind, ih _ _ h.2 (Nat.succ.inj hs) (by omega), Nat.add_assoc]

/-- An index vector in range has its position, unless a word is too small for it. -/
theorem offset_eq {s : Shape} {strides index : List Nat} (h : InRange s.dims index)
    (hs : strides.length = s.rank) (hb : View.position strides index < Word.bound) :
    s.offset strides index = .ok (View.position strides index) := by
  rw [offset, if_neg (by simpa [rank] using h.length_eq),
    offsetFrom_eq 0 0 h hs (by rwa [Nat.zero_add]), Nat.zero_add]

theorem offsetOf_eq {s : Shape} {index : List Nat} (h : InRange s.dims index)
    (hb : s.size < Word.bound) : s.offsetOf index = .ok (linear s.dims index) := by
  have hpos : View.position s.strides index = linear s.dims index :=
    position_rowMajor _ _ h.length_eq
  have hlt : View.position s.strides index < Word.bound := hpos ▸ Nat.lt_trans (linear_lt h) hb
  have hrank : s.strides.length = s.rank := length_rowMajor _
  rw [offsetOf, offset_eq h hrank hlt, hpos]

/-! ## All index vectors -/

theorem range_mul_eq_flatMap (m n : Nat) :
    List.range (m * n) = (List.range m).flatMap fun i => (List.range n).map (i * n + ·) := by
  induction m with
  | zero => simp
  | succ m ih =>
    rw [Nat.succ_mul, List.range_add, ih, List.range_succ, List.flatMap_append,
      List.flatMap_singleton]

theorem indices_eq_map (dims : List Nat) :
    indices dims = (List.range (volume dims)).map (unlinear dims) := by
  induction dims with
  | nil => rfl
  | cons d dims ih =>
    rw [indices, volume_cons, range_mul_eq_flatMap, List.map_flatMap, ih]
    congr 1
    funext i
    rw [List.map_map, List.map_map]
    refine List.map_congr_left fun p hp => ?_
    have hp := List.mem_range.mp hp
    simp only [Function.comp_apply, unlinear]
    rw [Nat.add_comm, Nat.add_mul_div_right _ _ (by omega), Nat.div_eq_of_lt hp,
      Nat.add_mul_mod_self_right, Nat.mod_eq_of_lt hp, Nat.zero_add]

theorem mem_indices {dims index : List Nat} : index ∈ indices dims ↔ InRange dims index := by
  rw [indices_eq_map, List.mem_map]
  constructor
  · rintro ⟨p, hp, rfl⟩
    exact inRange_unlinear (List.mem_range.mp hp)
  · exact fun h => ⟨linear dims index, List.mem_range.mpr (linear_lt h), unlinear_linear h⟩

theorem map_linear_indices (dims : List Nat) :
    (indices dims).map (linear dims) = List.range (volume dims) := by
  have h : ∀ p ∈ List.range (volume dims), (linear dims ∘ unlinear dims) p = id p :=
    fun p hp => linear_unlinear (List.mem_range.mp hp)
  rw [indices_eq_map, List.map_map, List.map_congr_left h, List.map_id]

/-! ## Visiting -/

/-- The step from the index vector in place `p` leads to the one in place
`p + 1`, and from the last to the first. -/
theorem advanceDims_unlinear {dims : List Nat} {p : Nat} (h : p < volume dims)
    (hb : volume dims < Word.bound) :
    advanceDims dims (unlinear dims p) =
      .ok (decide (p + 1 < volume dims), unlinear dims ((p + 1) % volume dims)) := by
  induction dims generalizing p with
  | nil => simp [advanceDims, unlinear]
  | cons d dims ih =>
    have hd : 0 < d := Nat.pos_of_mul_pos_right (Nat.zero_lt_of_lt h)
    have hv : 0 < volume dims := Nat.pos_of_mul_pos_left (Nat.zero_lt_of_lt h)
    have hvb : volume dims < Word.bound :=
      Nat.lt_of_le_of_lt (Nat.le_mul_of_pos_left _ hd) hb
    have hdb : d < Word.bound := Nat.lt_of_le_of_lt (Nat.le_mul_of_pos_right _ hv) hb
    have hq : p / volume dims < d := Nat.div_lt_of_lt_mul (by rwa [Nat.mul_comm])
    have hm := Nat.mod_lt p hv
    have hp := Nat.div_add_mod p (volume dims)
    rw [unlinear, advanceDims, ih hm hvb, ok_bind]
    generalize hQ : p / volume dims = q at *
    generalize hR : p % volume dims = r at *
    rw [Nat.mul_comm] at hp
    by_cases hc : r + 1 < volume dims
    · -- the trailing indices still have a successor, so the leading one stays
      have hlt : p + 1 < d * volume dims := calc
        p + 1 = q * volume dims + (r + 1) := by omega
        _ < q * volume dims + volume dims := by omega
        _ = (q + 1) * volume dims := (Nat.succ_mul ..).symm
        _ ≤ d * volume dims := Nat.mul_le_mul_right _ hq
      have he : p + 1 = (r + 1) + q * volume dims := by omega
      rw [decide_eq_true hc, volume_cons, decide_eq_true hlt, Nat.mod_eq_of_lt hlt, unlinear, he,
        Nat.add_mul_div_right _ _ hv, Nat.div_eq_of_lt hc, Nat.add_mul_mod_self_right, Nat.zero_add]
      rfl
    · have he : p + 1 = (q + 1) * volume dims := by rw [Nat.succ_mul]; omega
      have hr : r + 1 = volume dims := by omega
      have hadd : Word.add q 1 = .ok (q + 1) := Word.add_of_lt (by omega)
      rw [decide_eq_false hc, hr, Nat.mod_self, volume_cons]
      simp only [hadd, ok_bind]
      by_cases hn : q + 1 < d
      · have hlt : p + 1 < d * volume dims := he ▸ Nat.mul_lt_mul_of_pos_right hn hv
        rw [if_pos hn, decide_eq_true hlt, Nat.mod_eq_of_lt hlt, unlinear, he,
          Nat.mul_div_cancel _ hv, Nat.mul_mod_left]
        rfl
      · have hd' : q + 1 = d := by omega
        rw [if_neg hn, he, hd', decide_eq_false (Nat.lt_irrefl _), Nat.mod_self, unlinear,
          Nat.zero_div, Nat.zero_mod]
        rfl

theorem unlinear_zero (dims : List Nat) : unlinear dims 0 = List.replicate dims.length 0 := by
  induction dims with
  | nil => rfl
  | cons d dims ih =>
    rw [unlinear, Nat.zero_div, Nat.zero_mod, ih, List.length_cons, List.replicate_succ]

theorem size_pos (s : Shape) : 0 < s.size := volume_pos s.pos

variable {β : Type} (s : Shape) (f : List Nat → Outcome β)

theorem visitFrom_eq (hb : s.size < Word.bound) (n p : Nat) (hn : 0 < n) (hp : p + n = s.size)
    (acc : Array β) :
    s.visitFrom f n (unlinear s.dims p) acc =
      (do return acc ++ (← ((List.range' p n).map (unlinear s.dims)).mapM f).toArray) := by
  induction n generalizing p acc with
  | zero => exact absurd hn (Nat.lt_irrefl 0)
  | succ n ih =>
    have hlt : p < volume s.dims := by
      have : s.size = volume s.dims := rfl
      omega
    rw [visitFrom, List.range'_succ, List.map_cons, List.mapM_cons]
    cases hf : f (unlinear s.dims p) with
    | error e => rfl
    | ok v =>
      have hlen : (unlinear s.dims p).length = s.rank := (inRange_unlinear hlt).length_eq
      rw [ok_bind, ok_bind, advance, if_neg (by simpa using hlen), advanceDims_unlinear hlt hb,
        ok_bind]
      rcases Nat.eq_zero_or_pos n with rfl | hpos
      · have : ¬p + 1 < volume s.dims := by
          have : s.size = volume s.dims := rfl
          omega
        rw [decide_eq_false this]
        simp
      · have hnext : p + 1 < volume s.dims := by
          have : s.size = volume s.dims := rfl
          omega
        rw [decide_eq_true hnext, Nat.mod_eq_of_lt hnext]
        simp only []
        rw [ih (p + 1) hpos (by omega)]
        cases ((List.range' (p + 1) n).map (unlinear s.dims)).mapM f with
        | error e => rfl
        | ok vs => simp

/-- Visiting a shape maps all its index vectors, in row-major order. -/
theorem visit_eq_mapM (hb : s.size < Word.bound) :
    s.visit f = (do return (← (indices s.dims).mapM f).toArray) := by
  have h0 : s.origin = unlinear s.dims 0 := (unlinear_zero s.dims).symm
  have hs : volume s.dims = s.size := rfl
  rw [visit, h0, visitFrom_eq s f hb s.size 0 s.size_pos (Nat.zero_add _), indices_eq_map, hs,
    ← List.range_eq_range']
  cases ((List.range s.size).map (unlinear s.dims)).mapM f with
  | error e => rfl
  | ok vs => simp

theorem getElem?_indices {dims index : List Nat} (h : InRange dims index) :
    (indices dims)[linear dims index]? = some index := by
  rw [indices_eq_map, List.getElem?_map, List.getElem?_range (linear_lt h), Option.map_some,
    unlinear_linear h]

variable {s f}

/-- A visit gives values, if each of its steps does. -/
theorem exists_visit (hb : s.size < Word.bound)
    (h : ∀ {index}, InRange s.dims index → ∃ v, f index = .ok v) : ∃ vs, s.visit f = .ok vs := by
  obtain ⟨vs, hvs⟩ := exists_mapM fun index hi => h (mem_indices.mp hi)
  exact ⟨vs.toArray, by rw [visit_eq_mapM s f hb, hvs]; rfl⟩

/-- Each index vector is visited in its place. -/
theorem visit_at (hb : s.size < Word.bound) {vs : Array β} (h : s.visit f = .ok vs)
    {index : List Nat} (hi : InRange s.dims index) :
    ∃ v, f index = .ok v ∧ vs[linear s.dims index]? = some v := by
  rw [visit_eq_mapM s f hb] at h
  obtain ⟨ys, hys, h⟩ := bind_eq_ok.mp h
  obtain rfl := Except.ok.inj h
  obtain ⟨v, hv, hat⟩ := getElem?_of_mapM hys (getElem?_indices hi)
  exact ⟨v, hv, by rw [List.getElem?_toArray, hat]⟩

end BlockTensor.Shape
