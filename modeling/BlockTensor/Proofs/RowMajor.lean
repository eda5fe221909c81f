import Mathlib.Data.List.Nodup
import Mathlib.Logic.Equiv.Defs
import BlockTensor.Proofs.Index

/-!
# Counting in row-major order

The index vectors of a shape are the numerals of a mixed-radix system: the place of one is its
value, and `Shape.advance` adds one to it, carrying from the innermost dimension outwards.
Where the elements of a shape can be counted in words, nothing of this overflows:

* `Shape.places`: index vectors and places correspond; every other vector is refused, by its
  length or by the first entry that is too large (`offsetOf_of_length_ne`, `offsetOf_of_too_large`).
* `Shape.advances_unlinear`: any number of steps, from any index vector on.
* `Shape.rowMajor_counts`: the cursor goes through all index vectors in the order of their places
  and is back at the first exactly when it says that there is no other.
-/

namespace BlockTensor.Shape

open Outcome

/-! ## Places -/

/-- The place of each index vector, and the index vector in each place. -/
def places (s : Shape) : {index // InRange s.dims index} ≃ Fin s.size where
  toFun index := ⟨linear s.dims index, linear_lt index.2⟩
  invFun p := ⟨unlinear s.dims p, inRange_unlinear p.2⟩
  left_inv index := Subtype.ext (unlinear_linear index.2)
  right_inv p := Fin.ext (linear_unlinear p.2)

theorem offsetOf_of_length_ne {s : Shape} {index : List Nat} (h : index.length ≠ s.rank) :
    s.offsetOf index = .fail (.invalidShape (.indexCount s.rank index.length)) := if_pos h

/-- The first entry that is too large is reported. The sum of the terms before it has not
overflowed, since they lead to an element. -/
theorem offsetFrom_of_too_large (axis : Nat) {acc : Nat} {dims index : List Nat}
    (hpos : ∀ d ∈ dims, 0 < d) (hacc : acc + volume dims ≤ Word.bound)
    (hlen : index.length = dims.length) (h : ¬InRange dims index) :
    ∃ k i d, index[k]? = some i ∧ dims[k]? = some d ∧ d ≤ i ∧
      InRange (dims.take k) (index.take k) ∧
      offsetFrom axis acc dims (rowMajor dims) index = .fail (.indexOutOfRange i (axis + k) d) := by
  induction dims generalizing axis acc index with
  | nil =>
    obtain rfl := List.length_eq_zero_iff.mp hlen
    exact absurd trivial h
  | cons d dims ih =>
    obtain ⟨i, index, rfl⟩ := List.exists_cons_of_length_eq_add_one hlen
    rw [rowMajor, offsetFrom]
    by_cases hi : d ≤ i
    · exact ⟨0, i, d, rfl, rfl, hi, trivial, if_pos hi⟩
    · have hlt : i < d := Nat.not_le.mp hi
      have hdims : ∀ d ∈ dims, 0 < d := fun d hd => hpos d (List.mem_cons_of_mem _ hd)
      have hvol := volume_pos hdims
      have hnext : acc + i * volume dims + volume dims ≤ Word.bound := calc
        acc + i * volume dims + volume dims = acc + (i + 1) * volume dims := by
          rw [Nat.succ_mul, Nat.add_assoc]
        _ ≤ acc + d * volume dims := Nat.add_le_add_left (Nat.mul_le_mul_right _ hlt) acc
        _ ≤ Word.bound := hacc
      obtain ⟨k, j, e, hj, he, hle, htake, hfail⟩ :=
        ih (axis + 1) hdims hnext (Nat.succ.inj hlen) fun hr => h ⟨hlt, hr⟩
      refine ⟨k + 1, j, e, hj, he, hle, ⟨hlt, htake⟩, ?_⟩
      rw [if_neg hi, Word.mul_of_lt (by omega), ok_bind, Word.add_of_lt (by omega), ok_bind, hfail,
        Nat.add_right_comm, Nat.add_assoc]

theorem offsetOf_of_too_large {s : Shape} {index : List Nat} (hb : s.size ≤ Word.bound)
    (hlen : index.length = s.rank) (h : ¬InRange s.dims index) :
    ∃ k i d, index[k]? = some i ∧ s.dims[k]? = some d ∧ d ≤ i ∧
      InRange (s.dims.take k) (index.take k) ∧
      s.offsetOf index = .fail (.indexOutOfRange i k d) := by
  obtain ⟨k, i, d, hi, hd, hle, htake, hfail⟩ :=
    offsetFrom_of_too_large 0 s.pos (by rwa [Nat.zero_add]) hlen h
  refine ⟨k, i, d, hi, hd, hle, htake, ?_⟩
  rw [Nat.zero_add] at hfail
  rw [offsetOf, offset, if_neg (not_not_intro hlen)]
  exact hfail

/-! ## Steps -/

/-- What each of `k` steps of a cursor says and the cursor that it leaves. -/
def advances (s : Shape) : (k : Nat) → (cursor : List Nat) → Outcome (List (Bool × List Nat))
  | 0, _ => .ok []
  | k + 1, cursor => do
    let step ← s.advance cursor
    return step :: (← s.advances k step.2)

/-- Steps count places, and begin again after the last. -/
theorem advances_unlinear {s : Shape} (hb : s.size < Word.bound) (k p : Nat) :
    s.advances k (unlinear s.dims (p % s.size)) =
      .ok ((List.range' p k).map fun q =>
        (decide (q % s.size + 1 < s.size), unlinear s.dims ((q + 1) % s.size))) := by
  induction k generalizing p with
  | zero => rfl
  | succ k ih =>
    have hlt : p % s.size < volume s.dims := Nat.mod_lt _ s.size_pos
    have hlen : (unlinear s.dims (p % s.size)).length = s.rank := (inRange_unlinear hlt).length_eq
    have hstep : s.advance (unlinear s.dims (p % s.size)) =
        .ok (decide (p % s.size + 1 < s.size), unlinear s.dims ((p + 1) % s.size)) := by
      rw [advance, if_neg (not_not_intro hlen), advanceDims_unlinear hlt hb]
      exact congrArg (fun q => Except.ok (_, unlinear s.dims q)) (Nat.mod_add_mod ..)
    rw [advances, hstep, ok_bind, ih (p + 1), List.range'_succ, List.map_cons]
    rfl

/-- From the first index vector on, there are as many steps as elements, and the last one leads
back. -/
theorem advances_origin {s : Shape} (hb : s.size < Word.bound) :
    s.advances s.size s.origin =
      .ok ((indices s.dims).tail.map (true, ·) ++ [(false, s.origin)]) := by
  have horigin : unlinear s.dims 0 = s.origin := unlinear_zero s.dims
  have hsteps := advances_unlinear hb s.size 0
  obtain ⟨m, hm⟩ : ∃ m, s.size = m + 1 := ⟨s.size - 1, by have := s.size_pos; omega⟩
  have htail : (indices s.dims).tail = (List.range m).map fun q => unlinear s.dims (q + 1) := by
    rw [indices_eq_map, show volume s.dims = m + 1 from hm, List.range_succ_eq_map, List.map_cons,
      List.tail_cons, List.map_map]
    rfl
  rw [Nat.zero_mod, horigin, ← List.range_eq_range', hm, List.range_succ, List.map_append,
    List.map_singleton, Nat.mod_self, horigin, Nat.mod_eq_of_lt (Nat.lt_succ_self m),
    decide_eq_false (Nat.lt_irrefl _)] at hsteps
  rw [hm, hsteps, htail, List.map_map]
  refine congrArg (fun steps => Except.ok (steps ++ _)) (List.map_congr_left fun q hq => ?_)
  -- before the last place there is another one
  have hq := List.mem_range.mp hq
  rw [Function.comp_apply, Nat.mod_eq_of_lt (by omega), Nat.mod_eq_of_lt (by omega),
    decide_eq_true (by omega)]

theorem nodup_indices (dims : List Nat) : (indices dims).Nodup :=
  List.Nodup.of_map (linear dims) (map_linear_indices dims ▸ List.nodup_range)

/-- Where the elements of a shape can be counted, the places of its index vectors are computed
and correspond to the numbers below this count, and every other vector is refused. The cursor
that starts at the first index vector visits each one once, in the order of their places; the
step that says that there is no other is the last of as many as there are elements, and leaves
the cursor at the first. -/
theorem rowMajor_counts (s : Shape) {n : Nat} (h : s.numel = .ok n) :
    (∃ place : {index // InRange s.dims index} ≃ Fin n,
      ∀ index, s.offsetOf index.1 = .ok (place index).1) ∧
    (∀ index, ¬InRange s.dims index → ∃ err, s.offsetOf index = .fail err) ∧
    ∃ visited : List (List Nat), visited.head? = some s.origin ∧ visited.Nodup ∧
      (∀ index, index ∈ visited ↔ InRange s.dims index) ∧
      visited.map s.offsetOf = (List.range n).map .ok ∧
      s.advances n s.origin = .ok (visited.tail.map (true, ·) ++ [(false, s.origin)]) := by
  obtain ⟨hb, rfl⟩ := Word.check_eq_ok.mp h
  refine ⟨⟨s.places, fun index => offsetOf_eq index.2 hb⟩, fun index hi => ?_,
    indices s.dims, ?_, nodup_indices s.dims, fun index => mem_indices, ?_, advances_origin hb⟩
  · by_cases hlen : index.length = s.rank
    · obtain ⟨_, _, _, -, -, -, -, hfail⟩ := offsetOf_of_too_large (Nat.le_of_lt hb) hlen hi
      exact ⟨_, hfail⟩
    · exact ⟨_, offsetOf_of_length_ne hlen⟩
  · have hfirst := getElem?_indices (inRange_unlinear s.size_pos)
    rwa [linear_unlinear s.size_pos, unlinear_zero, ← List.head?_eq_getElem?] at hfirst
  · have hplaces : (indices s.dims).map s.offsetOf =
        (indices s.dims).map fun index => .ok (linear s.dims index) :=
      List.map_congr_left fun index hi => offsetOf_eq (mem_indices.mp hi) hb
    rw [hplaces, size, ← map_linear_indices, List.map_map]
    rfl

/-- Two rows of five. -/
def oblong : Shape := ⟨[2, 5], by decide, by decide⟩

theorem rowMajor_counts_oblong :
    oblong.numel = .ok 10 ∧
      (∃ err, oblong.offsetOf [0, 5] = .fail err) ∧
      ∃ visited : List (List Nat), [1, 2] ∈ visited ∧
        oblong.advances 10 [0, 0] = .ok (visited.tail.map (true, ·) ++ [(false, [0, 0])]) := by
  have hn : oblong.numel = .ok 10 := rfl
  obtain ⟨-, hrefused, visited, -, -, hmem, -, hsteps⟩ := rowMajor_counts oblong hn
  exact ⟨hn, hrefused [0, 5] fun h => absurd h.2.1 (by decide), visited,
    (hmem [1, 2]).mpr ⟨by decide, by decide, trivial⟩, hsteps⟩

end BlockTensor.Shape
