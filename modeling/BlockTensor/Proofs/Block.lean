import BlockTensor.Proofs.Exact
import BlockTensor.Proofs.Fill
import BlockTensor.Proofs.Layout

/-!
# Quantized elements block by block

`Elements.block e b` is block `b` as elements of its own: its codes and its
scale. Quantized elements are their blocks (`eq_of_blocks`), and a write changes
each block by itself: `rewriteBlock` decodes it, replaces what the write covers
and encodes it again, and `write_blocks` says that this happens to the blocks
that the write touches and to no other.

A write that covers the same elements of a block with the same values as another
one changes the block in the same way (`rewriteBlock_congr`).
-/

namespace BlockTensor

open Outcome Update

namespace Buffer

variable {β : Type}

theorem getElem?_chunk_of_le {a : Array β} {len b i : Nat} (h : len ≤ i) :
    (chunk a len b)[i]? = none := by
  rw [Array.getElem?_eq_none]
  rw [size_chunk]
  omega

/-- A chunk has the entries of the buffer at its place. -/
theorem getD_chunk (a : Array β) (len b j : Nat) (v : β) :
    (chunk a len b).getD j v = if j < len then a.getD (b * len + j) v else v := by
  rw [Array.getD_eq_getD_getElem?, Array.getD_eq_getD_getElem?]
  split
  · rw [getElem?_chunk _ ‹_›]
  · rw [getElem?_chunk_of_le (by omega), Option.getD_none]

theorem size_chunk_le (a : Array β) (len b : Nat) : (chunk a len b).size ≤ len := by
  rw [size_chunk]
  omega

/-- A whole chunk is written as a buffer of its own would be. -/
theorem chunk_blit {a src : Array β} {len b : Nat} (hsrc : src.size = len)
    (hb : b * len + len ≤ a.size) :
    chunk (blit a (b * len) src) len b = blit (chunk a len b) (0 * len) src := by
  apply Array.ext_getElem?
  intro i
  by_cases hi : i < len
  · rw [getElem?_chunk _ hi, getElem?_blit, getElem?_blit, size_chunk, if_pos (by omega),
      if_pos (by omega)]
    congr 1
    omega
  · rw [getElem?_chunk_of_le (Nat.le_of_not_lt hi), Array.getElem?_eq_none]
    rw [size_blit, size_chunk]
    omega

/-- A whole chunk is what has been written there. -/
theorem chunk_blit_self {a src : Array β} {len b : Nat} (hsrc : src.size = len)
    (hb : b * len + len ≤ a.size) : chunk (blit a (b * len) src) len b = src := by
  rw [chunk_blit hsrc hb, Nat.zero_mul, blit_all]
  rw [hsrc, size_chunk]
  omega

/-- Another chunk is as it was. -/
theorem chunk_blit_ne {a src : Array β} {len b k : Nat} (hsrc : src.size = len) (hk : k ≠ b) :
    chunk (blit a (b * len) src) len k = chunk a len k := by
  apply Array.ext_getElem?
  intro i
  by_cases hi : i < len
  · rw [getElem?_chunk _ hi, getElem?_chunk _ hi, getElem?_blit, if_neg]
    rintro ⟨hlo, hhi, -⟩
    rcases Nat.lt_or_gt_of_ne hk with hlt | hlt
    · have := Nat.mul_le_mul_right len hlt
      rw [Nat.succ_mul] at this
      omega
    · have := Nat.mul_le_mul_right len hlt
      rw [Nat.succ_mul] at this
      omega
  · rw [getElem?_chunk_of_le (Nat.le_of_not_lt hi), getElem?_chunk_of_le (Nat.le_of_not_lt hi)]

theorem setIfInBounds_eq_blit (a : Array β) (b : Nat) (v : β) :
    a.setIfInBounds b v = blit a (b * 1) #[v] := by
  rw [Nat.mul_one]
  rfl

/-- A buffer is its chunks. -/
theorem eq_of_chunks {a a' : Array β} {len : Nat} (hlen : 0 < len)
    (h : ∀ b, chunk a len b = chunk a' len b) : a = a' := by
  apply Array.ext_getElem?
  intro i
  have hi := Nat.mod_lt i hlen
  have hdiv := Nat.div_add_mod' i len
  have hget : (chunk a len (i / len))[i % len]? = (chunk a' len (i / len))[i % len]? := by rw [h]
  rwa [getElem?_chunk _ hi, getElem?_chunk _ hi, hdiv] at hget

end Buffer

namespace Elements

variable {α : Type}

/-- Block `b`: its codes and its scale. -/
def block (e : Elements α) (b : Nat) : Elements α :=
  match e with
  | q8 data scales => q8 (Buffer.chunk data blockSize b) (Buffer.chunk scales 1 b)
  | q4 data scales => q4 (Buffer.chunk data q4BlockBytes b) (Buffer.chunk scales 1 b)
  | e => e

/-- Quantized elements are their blocks. -/
theorem eq_of_blocks {e e' : Elements α} (hq : e.dtype.isQuantized)
    (h : ∀ b, e.block b = e'.block b) : e = e' := by
  cases e with
  | f32 data | f16 data | bf16 data => cases hq
  | q8 data scales =>
    cases e' with
    | q8 data' scales' =>
      simp only [block, q8.injEq] at h
      rw [Buffer.eq_of_chunks (by decide) fun b => (h b).1,
        Buffer.eq_of_chunks Nat.one_pos fun b => (h b).2]
    | _ => exact nomatch h 0
  | q4 data scales =>
    cases e' with
    | q4 data' scales' =>
      simp only [block, q4.injEq] at h
      rw [Buffer.eq_of_chunks (by decide) fun b => (h b).1,
        Buffer.eq_of_chunks Nat.one_pos fun b => (h b).2]
    | _ => exact nomatch h 0

/-- Quantized elements as an engine can hold them. -/
structure Blocked (e : Elements α) : Prop where
  wellFormed : e.WellFormed
  quantized : e.dtype.isQuantized

theorem Blocked.of_layout {e e' : Elements α} (he : e.Blocked) (h : e'.layout = e.layout) :
    e'.Blocked :=
  ⟨he.wellFormed.of_layout h, dtype_eq_of_layout h ▸ he.quantized⟩

theorem Blocked.block_le {e : Elements α} (he : e.Blocked) {b : Nat} (hb : b < e.scaleCount) :
    b * blockSize + blockSize ≤ e.size := by
  rw [size_eq_scaleCount he.wellFormed.scaled he.quantized, ← Nat.succ_mul]
  exact Nat.mul_le_mul_right _ hb

/-- What is stored for an element is stored in its block. -/
theorem cell?_block {e : Elements α} (hq : e.dtype.isQuantized) (b : Nat) {j : Nat}
    (hj : j < blockSize) : (e.block b).cell? j = e.cell? (b * blockSize + j) := by
  have hstart : b * blockSize % blockSize = 0 := Nat.mul_mod_left ..
  have hfirst : b * blockSize / blockSize = b := Nat.mul_div_cancel _ (by decide)
  have hscale (scales : Array α) :
      (Buffer.chunk scales 1 b)[j / blockSize]? = scales[(b * blockSize + j) / blockSize]? := by
    rw [Nat.div_eq_of_lt hj, Buffer.getElem?_chunk _ Nat.one_pos, Nat.mul_one, Nat.add_zero,
      div_of_lt_block b hj]
  cases e with
  | f32 data | f16 data | bf16 data => cases hq
  | q8 data scales => simp only [block, cell?, hscale, Buffer.getElem?_chunk _ hj]
  | q4 data scales =>
    simp only [block, cell?, hscale, Buffer.getElem?_chunk _ (byteOf_lt_block hj),
      byteOf_add hstart, hfirst, nibble_add hstart]

variable [Scalar α]

/-- The values of a block are those of its elements. -/
theorem run_block {e : Elements α} (hq : e.dtype.isQuantized) (b : Nat) :
    (e.block b).run 0 blockSize = e.run (b * blockSize) blockSize := by
  rw [run, run, List.range'_eq_map_range, List.range'_eq_map_range, List.map_map, List.map_map]
  congr 1
  refine List.map_congr_left fun j hj => ?_
  simp only [Function.comp_apply, Nat.zero_add, value, cell?_block hq b (List.mem_range.mp hj)]

/-- A block that is set is set by itself. -/
theorem block_setBlock {e : Elements α} (he : e.Scaled) {b : Nat} (hb : b < e.scaleCount)
    (values : Array α) : (e.setBlock b values).block b = (e.block b).setBlock 0 values := by
  cases e with
  | f32 data | f16 data | bf16 data => rfl
  | q8 data scales =>
    have hs : b * 1 + 1 ≤ scales.size := (Nat.mul_one b).symm ▸ hb
    have hd : b * blockSize + blockSize ≤ data.size :=
      Nat.succ_mul .. ▸ size_eq_of_scaled_q8 he ▸ Nat.mul_le_mul_right blockSize hb
    simp only [setBlock, block, Buffer.setIfInBounds_eq_blit]
    rw [Buffer.chunk_blit (Q8.size_encodeBlock values) hd,
      Buffer.chunk_blit Array.size_singleton hs]
  | q4 data scales =>
    have hs : b * 1 + 1 ≤ scales.size := (Nat.mul_one b).symm ▸ hb
    have hd : b * q4BlockBytes + q4BlockBytes ≤ data.size :=
      Nat.succ_mul .. ▸ size_eq_of_scaled_q4 he ▸ Nat.mul_le_mul_right q4BlockBytes hb
    simp only [setBlock, block, Buffer.setIfInBounds_eq_blit]
    rw [Buffer.chunk_blit (Q4.size_encodeBlock values) hd,
      Buffer.chunk_blit Array.size_singleton hs]

/-- The other blocks are as they were. -/
theorem block_setBlock_ne (e : Elements α) {b k : Nat} (hk : k ≠ b) (values : Array α) :
    (e.setBlock b values).block k = e.block k := by
  cases e with
  | f32 data | f16 data | bf16 data => rfl
  | q8 data scales =>
    simp only [setBlock, block, Buffer.setIfInBounds_eq_blit]
    rw [Buffer.chunk_blit_ne (Q8.size_encodeBlock values) hk,
      Buffer.chunk_blit_ne Array.size_singleton hk]
  | q4 data scales =>
    simp only [setBlock, block, Buffer.setIfInBounds_eq_blit]
    rw [Buffer.chunk_blit_ne (Q4.size_encodeBlock values) hk,
      Buffer.chunk_blit_ne Array.size_singleton hk]

/-! ## Writes -/

/-- What an element is meant to be after a write of `src` from element `start` on: the
value that is written to it, or what it was. -/
def intended (start : Nat) (src : Array α) (i : Nat) (old : α) : α :=
  if h : start ≤ i ∧ i - start < src.size then src[i - start] else old

omit [Scalar α] in
theorem intended_eq (start : Nat) (src : Array α) (i : Nat) (old : α) :
    intended start src i old = if start ≤ i then src.getD (i - start) old else old := by
  unfold intended Array.getD
  by_cases hle : start ≤ i <;> simp [hle]

theorem getD_mergeBlock (start : Nat) (src : Array α) (e : Elements α) (b : Nat) {j : Nat}
    (hj : j < blockSize) :
    (mergeBlock (b * blockSize) start src (e.run (b * blockSize) blockSize)).getD j 0 =
      intended start src (b * blockSize + j) (e.value (b * blockSize + j)) := by
  have hrun : (e.run (b * blockSize) blockSize)[j]? = some (e.value (b * blockSize + j)) := by
    simp [run, hj]
  rw [mergeBlock, Array.getD_eq_getD_getElem?, Array.getElem?_mapIdx, hrun, intended_eq]
  rfl

/-- Block `b` with the part of `src` that falls in it written, where `src` starts
at element `start`. -/
def rewriteBlock (start : Nat) (src : Array α) (b : Nat) (block : Elements α) : Elements α :=
  block.setBlock 0 (mergeBlock (b * blockSize) start src (block.run 0 blockSize))

/-- Writing a block rewrites this block. -/
theorem writeBlock_blocks {e : Elements α} (he : e.Blocked) (start : Nat) (src : Array α) {b : Nat}
    (hb : b < e.scaleCount) :
    ∃ e', writeBlock start src b e = .ok () e' ∧ e'.layout = e.layout ∧
      e'.block b = rewriteBlock start src b (e.block b) ∧ ∀ k ≠ b, e'.block k = e.block k := by
  have hread := read_eq_run he.wellFormed (he.block_le hb)
  refine ⟨_, by rw [writeBlock, hread], setBlock_layout .., ?_,
    fun k hk => block_setBlock_ne _ hk _⟩
  rw [block_setBlock he.wellFormed.scaled hb, rewriteBlock, run_block he.quantized b]

/-- Writing some blocks rewrites each of them. -/
theorem writeBlocks_blocks {e : Elements α} (he : e.Blocked) (start : Nat) (src : Array α)
    {bs : List Nat} (hnodup : bs.Nodup) (hbs : ∀ b ∈ bs, b < e.scaleCount) :
    ∃ e', bs.forM (writeBlock start src) e = .ok () e' ∧ e'.layout = e.layout ∧
      ∀ k, e'.block k = if k ∈ bs then rewriteBlock start src k (e.block k) else e.block k := by
  induction bs generalizing e with
  | nil => exact ⟨e, rfl, rfl, fun k => rfl⟩
  | cons b bs ih =>
    obtain ⟨hnot, hnodup⟩ := List.nodup_cons.mp hnodup
    obtain ⟨hb, hbs⟩ := List.forall_mem_cons.mp hbs
    obtain ⟨e₁, hwrite, hlayout, hself, hothers⟩ := writeBlock_blocks he start src hb
    obtain ⟨e', hrest, hlayout', hblocks⟩ :=
      ih (he.of_layout hlayout) hnodup fun k hk => scaleCount_of_layout hlayout ▸ hbs k hk
    refine ⟨e', (forM_cons_ok hwrite).trans hrest, hlayout'.trans hlayout, fun k => ?_⟩
    rw [hblocks k]
    by_cases hk : k = b
    · rw [hk, if_neg hnot, if_pos List.mem_cons_self, hself]
    · rw [hothers k hk]
      exact if_congr (by simp [hk]) rfl rfl

/-- A write touches the blocks of its elements. -/
theorem mem_touchedBlocks {start len b : Nat} :
    b ∈ touchedBlocks start len ↔ ∃ r < len, (start + r) / blockSize = b := by
  unfold touchedBlocks
  split
  · simp_all
  · rw [List.mem_range']
    simp only [blocksOf, blockSize]
    constructor
    · rintro ⟨i, hi, rfl⟩
      exact ⟨(start / 32 + 1 * i) * 32 - start, by omega, by omega⟩
    · rintro ⟨r, hr, rfl⟩
      exact ⟨(start + r) / 32 - start / 32, by omega, by omega⟩

theorem nodup_touchedBlocks (start len : Nat) : (touchedBlocks start len).Nodup := by
  unfold touchedBlocks
  split
  · exact List.nodup_nil
  · exact List.nodup_range'

theorem write_of_quantized {e : Elements α} (hq : e.dtype.isQuantized) {start : Nat}
    {src : Array α} (h : checkRange start src.size e.size = .ok ()) :
    write start src e = (touchedBlocks start src.size).forM (writeBlock start src) e := by
  unfold write
  rw [h]
  cases e with
  | f32 data | f16 data | bf16 data => cases hq
  | q8 data scales | q4 data scales => rfl

/-- A write rewrites the blocks of its elements and no others. -/
theorem write_blocks {e : Elements α} (he : e.Blocked) {start : Nat} {src : Array α}
    (h : start + src.size ≤ e.size) :
    ∃ e', write start src e = .ok () e' ∧ e'.layout = e.layout ∧
      ∀ k, e'.block k =
        if ∃ r < src.size, (start + r) / blockSize = k then rewriteBlock start src k (e.block k)
        else e.block k := by
  have hbs : ∀ b ∈ touchedBlocks start src.size, b < e.scaleCount := by
    intro b hb
    obtain ⟨r, hr, rfl⟩ := mem_touchedBlocks.mp hb
    exact div_block_lt_scaleCount he.wellFormed.scaled he.quantized (by omega)
  obtain ⟨e', hwrite, hlayout, hblocks⟩ :=
    writeBlocks_blocks he start src (nodup_touchedBlocks ..) hbs
  refine ⟨e', ?_, hlayout, fun k => ?_⟩
  · rw [write_of_quantized he.quantized (checkRange_of_le h he.wellFormed.fits), hwrite]
  · rw [hblocks k]
    exact if_congr mem_touchedBlocks rfl rfl

/-- Writes that put the same values in a block rewrite it in the same way. -/
theorem rewriteBlock_congr {start start' b : Nat} {src src' : Array α}
    (h : ∀ i, i / blockSize = b → ∀ v : α,
      (if start ≤ i then src.getD (i - start) v else v) =
        if start' ≤ i then src'.getD (i - start') v else v) :
    rewriteBlock start src b = (rewriteBlock start' src' b : Elements α → Elements α) := by
  funext block
  have hmerge : mergeBlock (b * blockSize) start src (block.run 0 blockSize) =
      mergeBlock (b * blockSize) start' src' (block.run 0 blockSize) := by
    refine Array.ext (by simp [mergeBlock]) fun j hj _ => ?_
    have hj : j < blockSize := by simpa [mergeBlock] using hj
    simp only [mergeBlock, Array.getElem_mapIdx]
    exact h _ (div_of_lt_block b hj) _
  rw [rewriteBlock, rewriteBlock, hmerge]

/-- A write of which one value falls in a block rewrites it as a write of this
value alone. -/
theorem rewriteBlock_single {start b r : Nat} {src : Array α} (hr : r < src.size)
    (honly : ∀ s < src.size, (start + s) / blockSize = b → s = r) :
    rewriteBlock start src b =
      (rewriteBlock (start + r) #[src[r]] b : Elements α → Elements α) := by
  refine rewriteBlock_congr fun i hi v => ?_
  by_cases hir : i = start + r
  · rw [hir, if_pos (Nat.le_add_right ..), if_pos (Nat.le_refl _), Nat.add_sub_cancel_left,
      Nat.sub_self]
    simp [Array.getD, hr]
  · -- no other element of the block is written by either
    have hleft : start ≤ i → src.getD (i - start) v = v := fun hle => by
      have hout : ¬i - start < src.size := fun hlt =>
        hir (by rw [← honly _ hlt (by rwa [Nat.add_sub_cancel' hle]), Nat.add_sub_cancel' hle])
      simp [Array.getD, hout]
    have hright : start + r ≤ i → #[src[r]].getD (i - (start + r)) v = v := fun hle => by
      have hout : ¬i - (start + r) < 1 := by omega
      simp [Array.getD, hout]
    rw [ite_eq_right_iff.mpr hleft, ite_eq_right_iff.mpr hright]

end Elements

end BlockTensor
