import BlockTensor.Backend.Native.Gemm
import BlockTensor.Proofs.Layout

/-!
# What a kernel must do

A kernel of a library is known by its contract only. A call that obeys the rules
of the library (`GemmCall.Accepted`), which include that every index it touches
lies inside its buffer (`GemmCall.InBounds`), puts a dot product of the windows
of each of its tiles in the place of the tile, and changes nothing else
(`KernelTable.Meets`). What counts as a dot product is left open, since kernels
add in any order and precision.

* `Stored` is the effect of a call, and of several (`foldl_stored`).
* `KernelTable.elementwise_meets`: the sums from left to right meet the contract.
-/

namespace BlockTensor

open Outcome

variable {α : Type}

namespace Elements

variable [Scalar α]

/-- Element `p` is stored as the encoding of `v`. -/
def Holds (e : Elements α) (p : Nat) (v : α) : Prop :=
  e.cell? p = some (.f32 v) ∨ e.cell? p = some (.bf16 (Scalar.toBrain v))

theorem Holds.of_cell {e e' : Elements α} {p : Nat} {v : α} (h : e.Holds p v)
    (hc : e'.cell? p = e.cell? p) : e'.Holds p v := by
  unfold Holds
  rwa [hc]

end Elements

section

variable [Scalar α]

/-- Each position of `ps` holds a value that `Q` allows it, and nothing else has
changed. -/
structure Stored (ps : List Nat) (Q : Nat → α → Prop) (e e' : Elements α) : Prop where
  layout : e'.layout = e.layout
  holds : ∀ p ∈ ps, ∃ v, Q p v ∧ e'.Holds p v
  frame : ∀ p, p ∉ ps → e'.cell? p = e.cell? p

namespace Stored

variable {ps qs : List Nat} {Q R : Nat → α → Prop} {e e' e'' : Elements α}

theorem refl (e : Elements α) : Stored [] Q e e := ⟨rfl, nofun, fun _ _ => rfl⟩

theorem mono (h : Stored ps Q e e') (hQ : ∀ p v, Q p v → R p v) : Stored ps R e e' where
  layout := h.layout
  holds p hp :=
    have ⟨v, hv, hold⟩ := h.holds p hp
    ⟨v, hQ p v hv, hold⟩
  frame := h.frame

theorem trans (h : Stored ps Q e e') (h' : Stored qs Q e' e'') : Stored (ps ++ qs) Q e e'' where
  layout := h'.layout.trans h.layout
  holds p hp := by
    by_cases hq : p ∈ qs
    · exact h'.holds p hq
    · obtain ⟨v, hv, hold⟩ := h.holds p ((List.mem_append.mp hp).resolve_right hq)
      exact ⟨v, hv, hold.of_cell (h'.frame p hq)⟩
  frame p hp := by
    rw [List.mem_append, not_or] at hp
    rw [h'.frame p hp.2, h.frame p hp.1]

end Stored

/-- What one step stores, a sequence of steps stores. -/
theorem foldl_stored {ι : Type} {ts : List ι} {step : Elements α → ι → Elements α}
    {ps : ι → List Nat} {Q : Nat → α → Prop} {e : Elements α}
    (h : ∀ t ∈ ts, ∀ d : Elements α, d.layout = e.layout → Stored (ps t) Q d (step d t)) :
    Stored (ts.flatMap ps) Q e (ts.foldl step e) := by
  induction ts generalizing e with
  | nil => exact .refl e
  | cons t ts ih =>
    have hstep := h t List.mem_cons_self e rfl
    rw [List.flatMap_cons, List.foldl_cons]
    exact hstep.trans (ih fun s hs d hd =>
      h s (List.mem_cons_of_mem _ hs) d (hd.trans hstep.layout))

end

/-! ## Calls -/

/-- A position of a buffer of `n` entries. -/
def Inside (pos : Int) (n : Nat) : Prop := 0 ≤ pos ∧ pos < n

namespace GemmCall

variable (c : GemmCall)

/-- Where the data of column `t` of the window of row `j` of `b` is, in units of
its buffer. -/
def bData (j : Int) (t : Nat) : Int :=
  if c.bUnit = 2 then c.bStride * j + c.bOffset + Q4.byteOf t else c.bPos j t

/-- The position of a tile in the result. -/
def place (tile : Int × Int) : Nat := (c.rPos tile.1 tile.2).toNat

/-- The positions that a call writes. -/
def written : List Nat := c.tiles.map c.place

/-- Every index that a call touches lies inside the buffer. -/
structure InBounds (a b r : Elements α) : Prop where
  aData : ∀ ij ∈ c.tiles, ∀ t < c.depth.toNat, Inside (c.aPos ij.1 t) a.dataCount
  aScale : a.dtype.isQuantized → ∀ ij ∈ c.tiles, ∀ t < c.depth.toNat,
    Inside (c.aScalePos ij.1 t) a.scaleCount
  bData : ∀ ij ∈ c.tiles, ∀ t < c.depth.toNat, Inside (c.bData ij.2 t) b.dataCount
  bScale : b.dtype.isQuantized → ∀ ij ∈ c.tiles, ∀ t < c.depth.toNat,
    Inside (c.bScalePos ij.2 t) b.scaleCount
  result : ∀ ij ∈ c.tiles, Inside (c.rPos ij.1 ij.2) r.dataCount

/-- The rules of a kernel library: the encodings are those of the kernel, windows
are whole blocks that start on blocks of their rows, indices stay in their
buffers, and each tile has a position of its own. -/
structure Accepted (a b r : Elements α) : Prop where
  pair : Gemm.ofPair? a.dtype b.dtype = some c.kernel
  result : r.dtype = c.result
  stores : c.kernel.stores c.result = true
  depth : 0 < c.depth ∧ c.depth % blockSize = 0
  aAligned : a.dtype.isQuantized → c.aOffset % blockSize = 0 ∧ c.aStride % blockSize = 0
  bAligned : b.dtype.isQuantized → c.bOffset % q4BlockBytes = 0 ∧ c.bStride % q4BlockBytes = 0
  inBounds : c.InBounds a b r
  distinct : c.written.Nodup

theorem Accepted.of_layout {c : GemmCall} {a b r r' : Elements α} (h : c.Accepted a b r)
    (hl : r'.layout = r.layout) : c.Accepted a b r' where
  pair := h.pair
  result := (Elements.dtype_eq_of_layout hl).trans h.result
  stores := h.stores
  depth := h.depth
  aAligned := h.aAligned
  bAligned := h.bAligned
  inBounds := ⟨h.inBounds.aData, h.inBounds.aScale, h.inBounds.bData, h.inBounds.bScale, by
    rw [Elements.dataCount_of_layout hl]
    exact h.inBounds.result⟩
  distinct := h.distinct

variable [Scalar α]

/-- The window of row `i` of `a`, decoded. -/
def aWindow (a : Elements α) (i : Int) : List α :=
  (List.range c.depth.toNat).map fun (t : Nat) => operand a (c.aPos i t) (c.aScalePos i t)

/-- The window of row `j` of `b`, decoded. -/
def bWindow (b : Elements α) (j : Int) : List α :=
  (List.range c.depth.toNat).map fun (t : Nat) => operand b (c.bPos j t) (c.bScalePos j t)

/-- A dot product of the windows of the tile that a position belongs to. -/
def IsResult (IsDot : List α → List α → α → Prop) (a b : Elements α) (p : Nat) (v : α) : Prop :=
  ∃ ij ∈ c.tiles, c.place ij = p ∧ IsDot (c.aWindow a ij.1) (c.bWindow b ij.2) v

end GemmCall

variable [Scalar α]

/-- The contract of a kernel library. -/
def KernelTable.Meets (table : KernelTable α) (IsDot : List α → List α → α → Prop) : Prop :=
  ∀ (c : GemmCall) (a b r : Elements α), c.Accepted a b r →
    Stored c.written (c.IsResult IsDot a b) r (table.run c a b r)

/-! ## The sums from left to right -/

/-- The sum of the products from left to right, started at zero. -/
def sumOfProducts (xs ys : List α) : α := (List.zipWith (· * ·) xs ys).foldl (· + ·) 0

theorem GemmCall.dot_eq (c : GemmCall) (a b : Elements α) (i j : Int) :
    c.dot a b i j = sumOfProducts (c.aWindow a i) (c.bWindow b j) := by
  rw [sumOfProducts, aWindow, bWindow, List.zipWith_map, List.zipWith_self, List.foldl_map]
  rfl

/-- A step that changes one cell only stores what the cell holds then. -/
theorem Stored.of_cell {Q : Nat → α → Prop} {q : Nat} {v : α} {e e' : Elements α}
    (hl : e'.layout = e.layout) (hv : Q q v) (hold : e'.Holds q v)
    (h : ∀ p ≠ q, e'.cell? p = e.cell? p) : Stored [q] Q e e' where
  layout := hl
  holds p hp := by
    obtain rfl := List.mem_singleton.mp hp
    exact ⟨v, hv, hold⟩
  frame p hp := h p fun heq => hp (List.mem_singleton.mpr heq)

theorem GemmCall.store_stored {Q : Nat → α → Prop} {pos : Int} {v : α} {e : Elements α}
    (hd : e.dtype = .f32 ∨ e.dtype = .bf16) (hpos : Inside pos e.dataCount) (hv : Q pos.toNat v) :
    Stored [pos.toNat] Q e (GemmCall.store pos v e) := by
  have hlt : pos.toNat < e.dataCount := by
    obtain ⟨hlo, hhi⟩ := hpos
    omega
  cases e with
  | f32 data =>
    refine .of_cell (by simp [store, Elements.layout]) hv (.inl ?_) fun p hp => ?_
    · rw [store, Elements.cell?, Array.getElem?_setIfInBounds_self_of_lt hlt]
      rfl
    · simp only [store, Elements.cell?, Array.getElem?_setIfInBounds_ne (Ne.symm hp)]
  | bf16 data =>
    refine .of_cell (by simp [store, Elements.layout]) hv (.inr ?_) fun p hp => ?_
    · rw [store, Elements.cell?, Array.getElem?_setIfInBounds_self_of_lt hlt]
      rfl
    · simp only [store, Elements.cell?, Array.getElem?_setIfInBounds_ne (Ne.symm hp)]
  | f16 data | q8 data scales | q4 data scales => simp [Elements.dtype] at hd

theorem Gemm.stores_eq_true {g : Gemm} {d : DType} (h : g.stores d = true) :
    d = .f32 ∨ d = .bf16 := by
  cases g <;> cases d <;> simp_all [stores]

theorem KernelTable.elementwise_meets :
    (elementwise : KernelTable α).Meets fun xs ys v => v = sumOfProducts xs ys := by
  intro c a b r hc
  have hwritten : c.written = c.tiles.flatMap fun ij => [c.place ij] := by
    rw [GemmCall.written, List.map_eq_flatMap]
  rw [hwritten]
  refine foldl_stored fun ij hij d hd => ?_
  have hdtype : d.dtype = c.result := (Elements.dtype_eq_of_layout hd).trans hc.result
  refine GemmCall.store_stored (hdtype ▸ Gemm.stores_eq_true hc.stores) ?_
    ⟨ij, hij, rfl, c.dot_eq a b ij.1 ij.2⟩
  rw [Elements.dataCount_of_layout hd]
  exact hc.inBounds.result ij hij

end BlockTensor
