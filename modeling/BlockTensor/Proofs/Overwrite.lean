import BlockTensor.Proofs.Batch
import BlockTensor.Proofs.DotRow

/-!
# Windows written value by value

Float elements are written by putting the encoded values in their place
(`Elements.overwrite`), so results that are written one after the other are written as
the row they make up, and rows one after the other as the window
(`BatchWindow.overwriteRows`).

* `forM_range_ok` follows the states of a loop.
* `Reference.batchDotProduct_overwrites`: the reference loops write the dot products
  that they compute, whatever these are.
-/

namespace BlockTensor

open Outcome Update

/-- A loop goes through a sequence of states, if each step does. -/
theorem Update.forM_range_ok {σ : Type} {u : Nat → Update σ Unit} (s : Nat → σ) {n : Nat}
    (h : ∀ r < n, u r (s r) = .ok () (s (r + 1))) :
    (List.range n).forM u (s 0) = .ok () (s n) := by
  have hall : ∀ m start, start + m = n →
      (List.range' start m).forM u (s start) = .ok () (s n) := by
    intro m
    induction m with
    | zero =>
      rintro start rfl
      rfl
    | succ m ih =>
      intro start hn
      rw [List.range'_succ, forM_cons_ok (h start (by omega))]
      exact ih (start + 1) (by omega)
  rw [List.range_eq_range']
  exact hall n 0 (Nat.zero_add n)

namespace Elements

variable {α : Type} [Scalar α]

/-- Float elements with values encoded from element `start` on. -/
def overwrite (start : Nat) (src : Array α) : Elements α → Elements α
  | f32 data => f32 (Buffer.blit data start src)
  | f16 data => f16 (Buffer.blit data start (src.map Scalar.toHalf))
  | bf16 data => bf16 (Buffer.blit data start (src.map Scalar.toBrain))
  | e => e

theorem overwrite_layout (start : Nat) (src : Array α) (e : Elements α) :
    (e.overwrite start src).layout = e.layout := by
  cases e <;> simp [overwrite, layout]

theorem write_eq_overwrite {e : Elements α} (hq : e.dtype.isQuantized = false)
    (hb : e.size < Word.bound) {start : Nat} {src : Array α} (h : start + src.size ≤ e.size) :
    write start src e = .ok () (e.overwrite start src) := by
  unfold write
  rw [checkRange_of_le h hb]
  cases e with
  | f32 data | f16 data | bf16 data => rfl
  | q8 data scales | q4 data scales => cases hq

/-- Two adjacent writes are one. -/
theorem overwrite_overwrite (start : Nat) (xs ys : Array α) (e : Elements α) :
    (e.overwrite start xs).overwrite (start + xs.size) ys = e.overwrite start (xs ++ ys) := by
  cases e with
  | f32 data => exact congrArg f32 (Buffer.blit_blit data start xs ys)
  | f16 data => exact congrArg f16 (Buffer.blit_map_blit Scalar.toHalf data start xs ys)
  | bf16 data => exact congrArg bf16 (Buffer.blit_map_blit Scalar.toBrain data start xs ys)
  | q8 data scales | q4 data scales => rfl

theorem overwrite_empty (start : Nat) (e : Elements α) : e.overwrite start #[] = e := by
  cases e <;> simp [overwrite, Buffer.blit_empty]

end Elements

open Elements

/-- Float elements that hold a tensor of results. -/
structure Receives {β : Type} (result : Shape) (e : Elements β) : Prop where
  float : e.dtype.isQuantized = false
  holds : result.size ≤ e.size
  fits : e.size < Word.bound

theorem Receives.of_layout {β : Type} {result : Shape} {e e' : Elements β} (h : Receives result e)
    (hl : e'.layout = e.layout) : Receives result e' := by
  have hd := dtype_eq_of_layout hl
  have hs := size_eq_of_layout hl
  exact ⟨hd ▸ h.float, hs ▸ h.holds, hs ▸ h.fits⟩

variable {α : Type} [Scalar α]

/-- The values `d i r` written over the window of each of the first rows. -/
def BatchWindow.overwriteRows (w : BatchWindow) (result : Shape) (d : Nat → Nat → α)
    (e : Elements α) : Nat → Elements α
  | 0 => e
  | i + 1 => (w.overwriteRows result d e i).overwrite (i * result.last + w.rColumn)
      (Array.ofFn fun r : Fin w.rowChunk => d i r)

theorem BatchWindow.overwriteRows_layout (w : BatchWindow) (result : Shape) (d : Nat → Nat → α)
    (e : Elements α) (n : Nat) : (w.overwriteRows result d e n).layout = e.layout := by
  induction n with
  | zero => rfl
  | succ n ih => exact (overwrite_layout ..).trans ih

namespace Reference

variable {result : Shape} {a b : View α} {w : BatchWindow} {e : Elements α}

/-- A row is written one result after the other. -/
theorem batchRow_overwrites {d : Nat → α} {i : Nat} (he : Receives result e)
    (hle : i * result.last + w.rColumn + w.rowChunk ≤ result.size)
    (hdot : ∀ r < w.rowChunk, dotElements a.elems (i * a.shape.last + w.aColumn) b.elems
      ((w.bRow + r) * b.shape.last + w.bColumn) w.columns = .ok (d r)) :
    (List.range w.rowChunk).forM (fun r => batchElement result a b w i r) e =
      .ok () (e.overwrite (i * result.last + w.rColumn)
        (Array.ofFn fun r : Fin w.rowChunk => d r)) := by
  let s (n : Nat) : Elements α :=
    e.overwrite (i * result.last + w.rColumn) (Array.ofFn fun r : Fin n => d r)
  have hzero : s 0 = e := overwrite_empty _ e
  have hloop := forM_range_ok s (u := fun r => batchElement result a b w i r) fun r hr => by
    have hs : Receives result (s r) := he.of_layout (overwrite_layout ..)
    have hholds := hs.holds
    rw [batchElement_eq_set (hdot r hr), Elements.set,
      write_eq_overwrite hs.float hs.fits (by simp; omega)]
    have hrow : (Array.ofFn fun j : Fin (r + 1) => d j) =
        (Array.ofFn fun j : Fin r => d j) ++ #[d r] := Array.ofFn_succ
    have hnext := overwrite_overwrite (i * result.last + w.rColumn)
      (Array.ofFn fun j : Fin r => d j) #[d r] e
    rw [Array.size_ofFn, ← hrow] at hnext
    exact congrArg (EStateM.Result.ok ()) hnext
  rwa [hzero] at hloop

/-- The reference loops write the dot products row by row. -/
theorem batchDotProduct_overwrites {d : Nat → Nat → α} (hf : BatchFits result a b w)
    (he : Receives result e) (hw : checkBatch result a b w = .ok ())
    (hdot : ∀ i < a.shape.first, ∀ r < w.rowChunk,
      dotElements a.elems (i * a.shape.last + w.aColumn) b.elems
        ((w.bRow + r) * b.shape.last + w.bColumn) w.columns = .ok (d i r)) :
    batchDotProduct a b w result e = .ok () (w.overwriteRows result d e a.shape.first) := by
  rw [batchDotProduct, hw]
  refine (bind_ok rfl).trans (forM_range_ok (w.overwriteRows result d e) fun i hi => ?_)
  exact batchRow_overwrites (he.of_layout (w.overwriteRows_layout ..)) (hf.r_le hi) (hdot i hi)

end Reference

end BlockTensor
