import BlockTensor.Float.Binary32
import BlockTensor.Proofs.Batch
import BlockTensor.Proofs.Block
import BlockTensor.Proofs.DotRow

/-!
# Batched dot products into quantized results

From the same dot products, the reference backend makes a quantized row by
storing one result after the other, and the vectorized one by writing the row at
once. So a block is encoded as often as results fall into it by the one
(`setEach_blocks`), and once by the other (`Elements.write_blocks`).

* `batchDotProduct_blocks`: they leave the same in every block into which no row
  puts two results, and so the same elements if all blocks are like that.
* `batchDotProduct_requantizes`: they differ on a row of three results in one block.
  All its old values are overwritten, but as long as one of them is there the
  block has its scale, and the results that are stored first are rounded by it.
-/

namespace BlockTensor

open Outcome Update Elements

/-! ## Loops -/

/-- Two loops that keep a relation between their states at each step keep it. -/
theorem Update.forM_lockstep {σ ι : Type} {xs : List ι} {u v : ι → Update σ Unit}
    {R : σ → σ → Prop}
    (h : ∀ x ∈ xs, ∀ s t, R s t → ∃ s' t', u x s = .ok () s' ∧ v x t = .ok () t' ∧ R s' t')
    {s t : σ} (hst : R s t) :
    ∃ s' t', xs.forM u s = .ok () s' ∧ xs.forM v t = .ok () t' ∧ R s' t' := by
  induction xs generalizing s t with
  | nil => exact ⟨s, t, rfl, rfl, hst⟩
  | cons x xs ih =>
    obtain ⟨s₁, t₁, hu, hv, h₁⟩ := h x List.mem_cons_self s t hst
    obtain ⟨s', t', hus, hvs, h'⟩ := ih (fun y hy => h y (List.mem_cons_of_mem _ hy)) h₁
    exact ⟨s', t', (forM_cons_ok hu).trans hus, (forM_cons_ok hv).trans hvs, h'⟩

theorem Update.forM_congr {σ ι : Type} {xs : List ι} {u v : ι → Update σ Unit}
    (h : ∀ x ∈ xs, u x = v x) : xs.forM u = xs.forM v := by
  induction xs with
  | nil => rfl
  | cons x xs ih =>
    have hxs := ih fun y hy => h y (List.mem_cons_of_mem _ hy)
    rw [List.forM, List.forM, h x List.mem_cons_self, hxs]

theorem Update.forM_concat_ok {σ ι : Type} {xs : List ι} {u : ι → Update σ Unit} {x : ι}
    {s s' s'' : σ} (h : xs.forM u s = .ok () s') (hx : u x s' = .ok () s'') :
    (xs ++ [x]).forM u s = .ok () s'' := by
  rw [forM_concat]
  exact (bind_ok h).trans hx

variable {α : Type} [Scalar α]

/-! ## A row of results -/

/-- The results of a row that fall in a block, in their order. -/
def resultsIn (start n k : Nat) : List Nat :=
  (List.range n).filter fun r => (start + r) / blockSize = k

/-- Each result that falls in a block decodes and encodes it again. -/
theorem setEach_blocks {e : Elements α} (he : e.Blocked) {start n : Nat} (d : Nat → α)
    (h : start + n ≤ e.size) :
    ∃ e', (List.range n).forM (fun r => set (start + r) (d r)) e = .ok () e' ∧
      e'.layout = e.layout ∧
      ∀ k, e'.block k = (resultsIn start n k).foldl
        (fun block r => rewriteBlock (start + r) #[d r] k block) (e.block k) := by
  induction n with
  | zero => exact ⟨e, rfl, rfl, fun k => rfl⟩
  | succ n ih =>
    obtain ⟨e₁, hrow, hlayout, hblocks⟩ := ih (by omega)
    have hle : start + n + #[d n].size ≤ e₁.size := by
      rw [size_eq_of_layout hlayout]
      exact h
    obtain ⟨e', hset, hlayout', hblocks'⟩ := write_blocks (he.of_layout hlayout) hle
    refine ⟨e', ?_, hlayout'.trans hlayout, fun k => ?_⟩
    · rw [List.range_succ]
      exact forM_concat_ok hrow hset
    · rw [hblocks' k, hblocks k, resultsIn, resultsIn, List.range_succ, List.filter_append,
        List.foldl_append]
      by_cases hk : (start + n) / blockSize = k
      · rw [if_pos ⟨0, Nat.one_pos, hk⟩, List.filter_cons_of_pos (by simpa using hk)]
        rfl
      · rw [if_neg (by simpa using hk), List.filter_cons_of_neg (by simpa using hk)]
        rfl

/-- At most one of `n` results from element `start` on falls in block `k`. -/
def SingleIn (start n k : Nat) : Prop :=
  ∀ r < n, ∀ s < n, (start + r) / blockSize = k → (start + s) / blockSize = k → r = s

theorem resultsIn_single {start n k r : Nat} (h : SingleIn start n k) (hr : r < n)
    (hrk : (start + r) / blockSize = k) : resultsIn start n k = [r] := by
  refine List.perm_singleton.mp ((List.perm_ext_iff_of_nodup ?_ (List.nodup_singleton r)).mpr
    fun s => ?_)
  · exact List.nodup_range.filter _
  · simp only [resultsIn, List.mem_filter, List.mem_range, decide_eq_true_eq, List.mem_singleton]
    exact ⟨fun ⟨hs, hsk⟩ => h s hs r hr hsk hrk, fun he => he ▸ ⟨hr, hrk⟩⟩

theorem resultsIn_none {start n k : Nat} (h : ¬∃ r < n, (start + r) / blockSize = k) :
    resultsIn start n k = [] :=
  List.filter_eq_nil_iff.mpr fun r hr hrk =>
    h ⟨r, List.mem_range.mp hr, of_decide_eq_true hrk⟩

/-- A row that is stored one result after the other and a row that is written at
once change a block in the same way if at most one result falls in it. -/
theorem row_blocks {e e' : Elements α} (he : e.Blocked) (he' : e'.Blocked) {start n : Nat}
    (d : Nat → α) (h : start + n ≤ e.size) (h' : start + n ≤ e'.size) :
    ∃ e₁ e₂, (List.range n).forM (fun r => set (start + r) (d r)) e = .ok () e₁ ∧
      write start (Array.ofFn fun r : Fin n => d r) e' = .ok () e₂ ∧
      e₁.layout = e.layout ∧ e₂.layout = e'.layout ∧
      ∀ k, SingleIn start n k → e.block k = e'.block k → e₁.block k = e₂.block k := by
  obtain ⟨e₁, hset, hlayout₁, hblocks₁⟩ := setEach_blocks he d h
  have hsrc : start + (Array.ofFn fun r : Fin n => d r).size ≤ e'.size := by
    rwa [Array.size_ofFn]
  obtain ⟨e₂, hwrite, hlayout₂, hblocks₂⟩ := write_blocks he' hsrc
  refine ⟨e₁, e₂, hset, hwrite, hlayout₁, hlayout₂, fun k hsingle hk => ?_⟩
  rw [hblocks₁, hblocks₂, hk, Array.size_ofFn]
  by_cases hex : ∃ r < n, (start + r) / blockSize = k
  · obtain ⟨r, hr, hrk⟩ := hex
    rw [if_pos ⟨r, hr, hrk⟩, resultsIn_single hsingle hr hrk, rewriteBlock_single (r := r)]
    · rw [Array.getElem_ofFn]
      rfl
    · simpa using hr
    · exact fun s hs hsk => hsingle s (by simpa using hs) r hr hsk hrk
  · rw [if_neg hex, resultsIn_none hex]
    rfl

/-! ## Batches -/

/-- Both backends compute the dot products `d`. -/
structure BatchWindow.Dots (w : BatchWindow) (a b : View α) (d : Nat → Nat → α) : Prop where
  reference : ∀ i < a.shape.first, ∀ r < w.rowChunk,
    Reference.dotElements a.elems (i * a.shape.last + w.aColumn) b.elems
      ((w.bRow + r) * b.shape.last + w.bColumn) w.columns = .ok (d i r)
  kernel : ∀ i < a.shape.first,
    Vector.Computes a.elems (i * a.shape.last + w.aColumn) b w (d i)

/-- No row of a batch puts two results in block `k`. -/
def BatchWindow.Spreads (w : BatchWindow) (result : Shape) (rows k : Nat) : Prop :=
  ∀ i < rows, SingleIn (i * result.last + w.rColumn) w.rowChunk k

/-- A pair that the kernels refuse has no dot products. -/
theorem BatchWindow.Dots.supports {w : BatchWindow} {a b : View α} {d : Nat → Nat → α}
    (hd : w.Dots a b d) (hrows : 0 < w.rowChunk) : Kernel.supports a.dtype b.dtype = true := by
  by_contra hs
  have hfirst : 0 < a.shape.first := a.shape.pos _ (List.head_mem a.shape.nonempty)
  have hdot := hd.kernel 0 hfirst 0 hrows
  have hnone : ¬Kernel.supports a.elems.dtype b.elems.dtype = true := hs
  rw [Kernel.dot, if_neg hnone] at hdot
  cases hdot

/-- The rows of both backends, side by side. -/
theorem batchRows_blocks (p : Pool) {a b : View α} {w : BatchWindow} {result : Shape}
    {e : Elements α} {d : Nat → Nat → α} (he : e.Blocked) (hsize : result.size ≤ e.size)
    (hw : checkBatch result a b w = .ok ()) (hd : w.Dots a b d) :
    ∃ e₁ e₂,
      (List.range a.shape.first).forM (fun i =>
        (List.range w.rowChunk).forM (Reference.batchElement result a b w i)) e = .ok () e₁ ∧
      (List.range a.shape.first).forM (Vector.batchRowInto p result a b w) e = .ok () e₂ ∧
      e₁.layout = e.layout ∧ e₂.layout = e.layout ∧
      ∀ k, w.Spreads result a.shape.first k → e₁.block k = e₂.block k := by
  have hf := checkBatch_eq_ok hw
  refine forM_lockstep (R := fun s t : Elements α => s.layout = e.layout ∧ t.layout = e.layout ∧
    ∀ k, w.Spreads result a.shape.first k → s.block k = t.block k) ?_ ⟨rfl, rfl, fun _ _ => rfl⟩
  rintro i hi s t ⟨hs, ht, hblocks⟩
  have hi := List.mem_range.mp hi
  have hle := Nat.le_trans (hf.r_le hi) hsize
  obtain ⟨s', t', hset, hwrite, hs', ht', hrow⟩ := row_blocks (he.of_layout hs)
    (he.of_layout ht) (d i) (size_eq_of_layout hs ▸ hle) (size_eq_of_layout ht ▸ hle)
  have hfloat : t.dtype ≠ .f32 := fun h => by
    have hq := (he.of_layout ht).quantized
    rw [h] at hq
    cases hq
  refine ⟨s', t', ?_, ?_, hs'.trans hs, ht'.trans ht, fun k hk => hrow k (hk i hi) (hblocks k hk)⟩
  · rw [forM_congr fun r hr =>
      Reference.batchElement_eq_set (hd.reference i hi r (List.mem_range.mp hr))]
    exact hset
  · rw [Vector.batchRowInto_eq_write p (hd.kernel i hi) result hfloat]
    exact hwrite

/-- From the same dot products, the reference backend and the vectorized one leave
the same codes and the same scale in each block in which no row puts two results;
if that is so of all blocks, they leave the same elements. -/
theorem batchDotProduct_blocks (p : Pool) (a b : View α) (w : BatchWindow) (result : Shape)
    (e : Elements α) (d : Nat → Nat → α) (he : e.Blocked) (hsize : result.size ≤ e.size)
    (hw : checkBatch result a b w = .ok ()) (hd : w.Dots a b d) :
    ∃ e₁ e₂, Backend.reference.batchDotProduct a b w result e = .ok [] e₁ ∧
      left ((Backend.vector p).batchDotProduct a b w result e) = e₂ ∧
      (0 < w.rowChunk → (Backend.vector p).batchDotProduct a b w result e = .ok [] e₂) ∧
      e₁.layout = e.layout ∧ e₂.layout = e.layout ∧
      (∀ k, w.Spreads result a.shape.first k → e₁.block k = e₂.block k) ∧
      ((∀ k, w.Spreads result a.shape.first k) → e₁ = e₂) := by
  obtain ⟨e₁, e₂, hreference, hvector, hlayout₁, hlayout₂, hblocks⟩ :=
    batchRows_blocks p he hsize hw hd
  have hbatch₁ : Backend.reference.batchDotProduct a b w result e = .ok [] e₁ := by
    have hbatch : Reference.batchDotProduct a b w result e = .ok () e₁ := by
      rw [Reference.batchDotProduct, hw]
      exact (bind_ok rfl).trans hreference
    exact (bind_ok hbatch).trans rfl
  by_cases hs : Kernel.supports a.dtype b.dtype = true
  · have hbatch₂ : (Backend.vector p).batchDotProduct a b w result e = .ok [] e₂ := by
      have hbatch : Vector.batchDotProduct p a b w result e = .ok () e₂ := by
        rw [Vector.batchDotProduct, hw, Vector.checkSupported, if_pos hs]
        exact (bind_ok rfl).trans ((bind_ok rfl).trans hvector)
      exact (bind_ok hbatch).trans rfl
    refine ⟨e₁, e₂, hbatch₁, by rw [hbatch₂, left_ok], fun _ => hbatch₂, hlayout₁, hlayout₂,
      hblocks, fun hall => ?_⟩
    exact eq_of_blocks (he.of_layout hlayout₁).quantized fun k => hblocks k (hall k)
  · -- a refused pair has an empty window, so there is nothing to store
    have hrows : w.rowChunk = 0 := by
      by_contra hne
      exact hs (hd.supports (Nat.pos_of_ne_zero hne))
    have hnone : e₁ = e := by
      have hkeeps : Keeps ((List.range a.shape.first).forM fun i =>
          (List.range w.rowChunk).forM (Reference.batchElement result a b w i)) id := by
        rw [hrows]
        exact keeps_forM fun _ _ => keeps_pure ()
      have hleft := hkeeps e
      rwa [hreference, left_ok] at hleft
    have hrefused : left ((Backend.vector p).batchDotProduct a b w result e) = e := by
      rw [Backend.batchDotProduct_refused p e hw hs, left_error]
    refine ⟨e₁, e, hbatch₁, hrefused, fun hpos => absurd hrows (Nat.ne_of_gt hpos), hlayout₁, rfl,
      fun k _ => by rw [hnone], fun _ => hnone⟩

-- the runs on given operands below are computed, and their results compared
instance decidableResult {ε σ β : Type} [DecidableEq ε] [DecidableEq σ] [DecidableEq β] :
    DecidableEq (EStateM.Result ε σ β)
  | .ok v s, .ok v' s' => decidable_of_iff (v = v' ∧ s = s') (by simp)
  | .error f s, .error f' s' => decidable_of_iff (f = f' ∧ s = s') (by simp)
  | .ok .., .error .. => isFalse (by simp)
  | .error .., .ok .. => isFalse (by simp)

/-- One, as a row. -/
def unitRow : View Binary32 := ⟨⟨[1, 1], by decide, by decide⟩, [1, 1], .f32 #[⟨0x3f800000⟩]⟩

/-- Two and three, as rows. -/
def scoreRows : View Binary32 :=
  ⟨⟨[2, 1], by decide, by decide⟩, [1, 1], .f32 #[⟨0x40000000⟩, ⟨0x40400000⟩]⟩

/-- Two rows of nibbles, each a block. -/
def nibbleBlocks : Elements Binary32 := .q4 (.replicate 32 0x88) #[⟨0⟩, ⟨0⟩]

/-- Two and three times one go to two blocks. -/
theorem batchDotProduct_blocks_column :
    let result : Shape := ⟨[2, 32], by decide, by decide⟩
    let d (i _ : Nat) := scoreRows.elems.value i
    nibbleBlocks.Blocked ∧ result.size ≤ nibbleBlocks.size ∧
      checkBatch result scoreRows unitRow (.full 1 1) = .ok () ∧
      (BatchWindow.full 1 1).Dots scoreRows unitRow d ∧
      ∃ e', Backend.reference.batchDotProduct scoreRows unitRow (.full 1 1) result nibbleBlocks =
          .ok [] e' ∧
        (Backend.vector (.ofThreads 1 3)).batchDotProduct scoreRows unitRow (.full 1 1) result
          nibbleBlocks = .ok [] e' := by
  intro result d
  have he : nibbleBlocks.Blocked := ⟨⟨rfl, by decide⟩, rfl⟩
  have hsize : result.size ≤ nibbleBlocks.size := by decide +kernel
  have hw : checkBatch result scoreRows unitRow (.full 1 1) = .ok () := rfl
  have hd : (BatchWindow.full 1 1).Dots scoreRows unitRow fun i _ => scoreRows.elems.value i :=
    ⟨by decide +kernel, by unfold Vector.Computes; decide +kernel⟩
  -- a row of one result puts no two in a block
  have hspreads : ∀ k, (BatchWindow.full 1 1).Spreads result scoreRows.shape.first k :=
    fun k i _ r hr s hs _ _ => (Nat.lt_one_iff.mp hr).trans (Nat.lt_one_iff.mp hs).symm
  obtain ⟨e₁, e₂, h₁, -, h₂, -, -, -, heq⟩ :=
    batchDotProduct_blocks (.ofThreads 1 3) scoreRows unitRow (.full 1 1) result nibbleBlocks d
      he hsize hw hd
  exact ⟨he, hsize, hw, hd, e₁, h₁, heq hspreads ▸ h₂ Nat.one_pos⟩

/-- Three scores in one block, the last of which was 508. -/
def staleScores : Elements Binary32 := .q8 (#[0, 0, 127] ++ .replicate 29 0) #[⟨0x40800000⟩]

/-- 1.625, 1 and 1, as rows. -/
def keyRows : View Binary32 :=
  ⟨⟨[3, 1], by decide, by decide⟩, [1, 1], .f32 #[⟨0x3fd00000⟩, ⟨0x3f800000⟩, ⟨0x3f800000⟩]⟩

/-- The scores 1.625, 1 and 1 are written over three others. Stored one by one, the
first two are zero under the scale of the old third one, and remain so; written at
once, they have the codes 127, 78 and 78. -/
theorem batchDotProduct_requantizes :
    let result : Shape := ⟨[1, 3], by decide, by decide⟩
    let d (_ r : Nat) := keyRows.elems.value r
    staleScores.Blocked ∧ result.size ≤ staleScores.size ∧
      checkBatch result unitRow keyRows (.full 1 3) = .ok () ∧
      (BatchWindow.full 1 3).Dots unitRow keyRows d ∧
      Backend.reference.batchDotProduct unitRow keyRows (.full 1 3) result staleScores =
        .ok [] (.q8 (#[0, 0, 127] ++ .replicate 29 0) #[⟨0x3c010204⟩]) ∧
      (Backend.vector (.ofThreads 1 3)).batchDotProduct unitRow keyRows (.full 1 3) result
        staleScores = .ok [] (.q8 (#[127, 78, 78] ++ .replicate 29 0) #[⟨0x3c51a347⟩]) := by
  have hd : (BatchWindow.full 1 3).Dots unitRow keyRows fun _ r => keyRows.elems.value r :=
    ⟨by decide +kernel, by unfold Vector.Computes; decide +kernel⟩
  exact ⟨⟨⟨rfl, by decide +kernel⟩, rfl⟩, by decide +kernel, rfl, hd, by decide +kernel,
    by decide +kernel⟩

end BlockTensor
