import BlockTensor.Proofs.Agreement
import BlockTensor.Proofs.Block

/-!
# Loops that change each entry once

`Changes obs I step P g` says that a step changes each entry `i` of `P` by `g i`
and no other, where `obs` reads the entries of a state and `I` is what the step
needs of it and keeps. Steps whose entries have none in common may be taken in
any order (`Changes.foldl`).

* `Pool.mapChunks_combines`: a pool whose kernel combines each run of a buffer with the
  same run of another combines the buffers.
* `Elements.rewriteRange` changes a range of elements value by value, and
  `rewriteRange_changes` says what becomes of each cell of float elements.
* `Rewrites u e r` says that an update succeeds and, of float elements, makes `r`:
  both backends rewrite a range like that (`Reference.updateWindow_rewrites`,
  `Vector.updateRun_rewrites`), and a loop one range after the other
  (`forM_rewrites`).
-/

namespace BlockTensor

open Outcome Update

/-! ## Folds of steps -/

section

variable {σ ι γ : Type}

@[simp] theorem Update.ofOutcome_ok_bind {β : Type} (v : β) (k : β → Update σ γ) :
    (ofOutcome (.ok v) >>= k) = k v := rfl

/-- A step changes each entry `i` of `P` by `g i` and no other. -/
structure Changes (obs : σ → Nat → γ) (I : σ → Prop) (step : σ → σ) (P : Nat → Prop)
    (g : Nat → γ → γ) : Prop where
  keeps : ∀ s, I s → I (step s)
  inside : ∀ s, I s → ∀ i, P i → obs (step s) i = g i (obs s i)
  outside : ∀ s, I s → ∀ i, ¬P i → obs (step s) i = obs s i

/-- Steps with no entry in common change each of their entries once. -/
theorem Changes.foldl {obs : σ → Nat → γ} {I : σ → Prop} {k : σ → ι → σ}
    {P : ι → Nat → Prop} {g : Nat → γ → γ} {ts : List ι}
    (h : ∀ t ∈ ts, Changes obs I (k · t) (P t) g)
    (hapart : ts.Pairwise fun t t' => ∀ i, P t i → ¬P t' i) :
    Changes obs I (ts.foldl k ·) (fun i => ∃ t ∈ ts, P t i) g := by
  induction ts with
  | nil => exact ⟨fun s hs => hs, nofun, fun s hs i hi => rfl⟩
  | cons t ts ih =>
    obtain ⟨hfirst, hapart⟩ := List.pairwise_cons.mp hapart
    have ht := h t List.mem_cons_self
    have hts := ih (fun t' ht' => h t' (List.mem_cons_of_mem _ ht')) hapart
    refine ⟨fun s hs => hts.keeps _ (ht.keeps s hs), fun s hs i hi => ?_, fun s hs i hi => ?_⟩
    · show obs (ts.foldl k (k s t)) i = g i (obs s i)
      by_cases hhere : P t i
      · -- the later steps leave alone what this one has changed
        have hlater : ¬∃ t' ∈ ts, P t' i := fun ⟨t', ht', hi'⟩ => hfirst t' ht' i hhere hi'
        rw [hts.outside _ (ht.keeps s hs) i hlater, ht.inside s hs i hhere]
      · obtain ⟨t', ht', hi'⟩ := hi
        obtain rfl | ht' := List.mem_cons.mp ht'
        · exact absurd hi' hhere
        · rw [hts.inside _ (ht.keeps s hs) i ⟨t', ht', hi'⟩, ht.outside s hs i hhere]
    · show obs (ts.foldl k (k s t)) i = obs s i
      have hlater : ¬∃ t' ∈ ts, P t' i := fun ⟨t', ht', hi'⟩ =>
        hi ⟨t', List.mem_cons_of_mem _ ht', hi'⟩
      rw [hts.outside _ (ht.keeps s hs) i hlater,
        ht.outside s hs i fun hhere => hi ⟨t, List.mem_cons_self, hhere⟩]

end

/-! ## Runs of a buffer -/

section

variable {β γ δ : Type}

/-- Index by index maps that cannot fail. -/
theorem size_of_mapIdxM {f : Nat → β → Outcome γ} {xs : Array β} {ys : Array γ}
    (h : xs.mapIdxM f = .ok ys) : ys.size = xs.size := by
  have hgo (rest : List β) (acc : Array γ) (out : List γ)
      (hout : List.mapIdxM.go f rest acc = .ok out) : out.length = acc.size + rest.length := by
    induction rest generalizing acc with
    | nil =>
      obtain rfl : acc.toList = out := Except.ok.inj hout
      simp
    | cons v rest ih =>
      rw [List.mapIdxM.go] at hout
      obtain ⟨w, -, hout⟩ := bind_eq_ok.mp hout
      have hlen := ih _ hout
      simp only [Array.size_push, List.length_cons] at *
      omega
  obtain ⟨xs⟩ := xs
  rw [List.mapIdxM_toArray, map_eq_pure_bind] at h
  obtain ⟨out, hout, h⟩ := bind_eq_ok.mp h
  obtain rfl : out.toArray = ys := Except.ok.inj h
  simpa using hgo xs #[] out hout

theorem mapIdxM_of_ok {f : Nat → β → Outcome γ} {g : Nat → β → γ} {xs : Array β}
    (h : ∀ i < xs.size, ∀ v, f i v = .ok (g i v)) : xs.mapIdxM f = .ok (xs.mapIdx g) := by
  have hgo : ∀ (ys : List β) (acc : Array γ), acc.size + ys.length = xs.size →
      List.mapIdxM.go f ys acc = .ok (acc.toList ++ ys.mapIdx fun i v => g (acc.size + i) v) := by
    intro ys
    induction ys with
    | nil => intro acc _; simp [List.mapIdxM.go]
    | cons y ys ih =>
      intro acc hacc
      rw [List.length_cons] at hacc
      rw [List.mapIdxM.go, h _ (by omega) y, ok_bind, ih _ (by rw [Array.size_push]; omega)]
      simp [List.mapIdx_cons, Nat.add_assoc, Nat.add_comm 1]
  cases xs with
  | mk ys =>
    rw [List.mapIdxM_toArray, List.mapIdxM, hgo ys #[] (by simp)]
    simp [Functor.map, Except.map]

/-- A kernel combines two runs of one length entry by entry. -/
def Combines (kernel : Array β → Array γ → Array β) (f : β → γ → β) : Prop :=
  ∀ {run src}, src.size = run.size → kernel run src = Array.zipWith f run src

/-- Run `t` of a buffer combined with the same run of another. -/
def combineChunk (kernel : Array β → Array γ → Array β) (values : Array γ) (len t : Nat)
    (a : Array β) : Array β :=
  Buffer.blit a (t * len) (kernel (Buffer.chunk a len t)
    (values.extract (t * len) (t * len + (Buffer.chunk a len t).size)))

theorem mem_chunk_iff {len i t : Nat} (hlen : 0 < len) :
    i / len = t ↔ t * len ≤ i ∧ i < t * len + len := by
  rw [Nat.div_eq_iff hlen]
  omega

theorem combineChunk_changes {kernel : Array β → Array γ → Array β} {f : β → γ → β}
    (hk : Combines kernel f) {values : Array γ} {n len t : Nat} (hlen : 0 < len)
    (hle : t * len + len ≤ n) (hv : values.size = n) :
    Changes (fun (a : Array β) i => a[i]?) (fun a => a.size = n)
      (combineChunk kernel values len t) (fun i => i / len = t)
      (fun i v? => v?.bind fun v => values[i]?.map (f v)) := by
  have hchunk : ∀ a : Array β, a.size = n → (Buffer.chunk a len t).size = len := fun a ha => by
    rw [Buffer.size_chunk]
    omega
  have hkernel : ∀ a : Array β, a.size = n → combineChunk kernel values len t a =
      Buffer.blit a (t * len) (Array.zipWith f (Buffer.chunk a len t)
        (values.extract (t * len) (t * len + (Buffer.chunk a len t).size))) := by
    intro a ha
    rw [combineChunk, hk (by rw [Array.size_extract, hchunk a ha]; omega)]
  have hrun : ∀ a : Array β, a.size = n → (Array.zipWith f (Buffer.chunk a len t)
      (values.extract (t * len) (t * len + (Buffer.chunk a len t).size))).size = len := by
    intro a ha
    rw [Array.size_zipWith, hchunk a ha, Array.size_extract]
    omega
  refine ⟨fun a ha => (Buffer.size_blit ..).trans ha, fun a ha i hi => ?_, fun a ha i hi => ?_⟩
  · obtain ⟨hlo, hhi⟩ := (mem_chunk_iff hlen).mp hi
    show (combineChunk kernel values len t a)[i]? = a[i]?.bind _
    rw [hkernel a ha, Buffer.getElem?_blit, hrun a ha, if_pos ⟨hlo, hhi, by omega⟩,
      Array.getElem?_zipWith, Buffer.getElem?_chunk _ (by omega), hchunk a ha,
      Buffer.getElem?_extract_of_lt (by omega) (by omega), Nat.add_sub_cancel' hlo]
    cases a[i]? <;> cases values[i]? <;> rfl
  · show (combineChunk kernel values len t a)[i]? = a[i]?
    rw [hkernel a ha, Buffer.getElem?_blit, hrun a ha]
    exact if_neg fun hin => hi ((mem_chunk_iff hlen).mpr ⟨hin.1, hin.2.1⟩)

/-- A pool that combines each run of a buffer with the same run of another
combines the buffers, whatever its number of workers and its schedule. -/
theorem Pool.mapChunks_combines (p : Pool) {kernel : Array β → Array γ → Array β}
    {f : β → γ → β} (hk : Combines kernel f) {data : Array β} {values : Array γ}
    (h : values.size = data.size) :
    p.mapChunks data (fun first chunk =>
      kernel chunk (values.extract first (first + chunk.size))) =
      Array.zipWith f data values := by
  have hapart : (p.order data.size).Pairwise fun t t' => ∀ i,
      i / (p.plan data.size).chunk = t → ¬i / (p.plan data.size).chunk = t' :=
    ((p.schedule.perm _).nodup_iff.mpr List.nodup_range).imp fun hne i hi hi' =>
      hne (hi.symm.trans hi')
  have hall := Changes.foldl
    (k := fun a t => combineChunk kernel values (p.plan data.size).chunk t a)
    (fun t ht => combineChunk_changes hk (chunk_pos ..) (p.chunk_le (p.mem_order.mp ht)) h) hapart
  show (p.order data.size).foldl
    (fun a t => combineChunk kernel values (p.plan data.size).chunk t a) data = _
  apply Array.ext_getElem?
  intro i
  by_cases hi : i < data.size
  · rw [hall.inside data rfl i ⟨_, p.mem_order.mpr (p.div_chunk_lt hi), rfl⟩,
      Array.getElem?_zipWith]
    cases data[i]? <;> cases values[i]? <;> rfl
  · rw [Array.getElem?_eq_none (by rw [hall.keeps data rfl]; omega),
      Array.getElem?_eq_none (by rw [Array.size_zipWith]; omega)]

end

/-! ## Ranges of elements -/

variable {α : Type}

/-- Float elements are their cells. -/
theorem Elements.eq_of_cells {e e' : Elements α} (hq : e.dtype.isQuantized = false)
    (hd : e'.dtype = e.dtype) (h : ∀ i, e'.cell? i = e.cell? i) : e' = e := by
  cases e with
  | f32 data | f16 data | bf16 data =>
    cases e' with
    | f32 data' | f16 data' | bf16 data' =>
      cases hd
      all_goals
        congr 1
        apply Array.ext_getElem?
        exact fun i => Option.map_injective (fun _ _ hc => by cases hc; rfl) (h i)
    | _ => cases hd
  | q8 data scales | q4 data scales => cases hq

variable [Scalar α]

/-- What is stored for a value on its own. A quantized value is stored with its
block. -/
def Cell.encode? (d : DType) (v : α) : Option (Cell α) :=
  match d with
  | .f32 => some (.f32 v)
  | .f16 => some (.f16 (Scalar.toHalf v))
  | .bf16 => some (.bf16 (Scalar.toBrain v))
  | .q8 | .q4 => none

namespace Elements

theorem cell?_overwrite {e : Elements α} (hq : e.dtype.isQuantized = false) {start : Nat}
    {src : Array α} (h : start + src.size ≤ e.size) (i : Nat) :
    (e.overwrite start src).cell? i =
      if start ≤ i ∧ i < start + src.size then src[i - start]?.bind (Cell.encode? e.dtype)
      else e.cell? i := by
  by_cases hi : start ≤ i ∧ i < start + src.size
  · rw [if_pos hi]
    cases e with
    | f32 data | f16 data | bf16 data =>
      have hlt : i < data.size := by
        simp only [size] at h
        omega
      simp only [overwrite, cell?, Buffer.getElem?_blit, Array.size_map, Array.getElem?_map]
      rw [if_pos ⟨hi.1, hi.2, hlt⟩]
      cases src[i - start]? <;> rfl
    | q8 data scales | q4 data scales => cases hq
  · rw [if_neg hi]
    cases e with
    | f32 data | f16 data | bf16 data =>
      simp only [overwrite, cell?, Buffer.getElem?_blit, Array.size_map]
      rw [if_neg fun hin => hi ⟨hin.1, hin.2.1⟩]
    | q8 data scales | q4 data scales => cases hq

/-- `g i v` for the value `v` of each element `i` of a range. -/
def rewriteRange (start len : Nat) (g : Nat → α → α) (e : Elements α) : Elements α :=
  e.overwrite start (Array.ofFn fun i : Fin len => g (start + i) (e.value (start + i)))

theorem rewriteRange_layout (start len : Nat) (g : Nat → α → α) (e : Elements α) :
    (e.rewriteRange start len g).layout = e.layout := overwrite_layout ..

/-- A change of values, as a change of what is stored for them. -/
def recode (d : DType) (g : Nat → α → α) (i : Nat) (c? : Option (Cell α)) : Option (Cell α) :=
  Cell.encode? d (g i ((c?.map Cell.decode).getD 0))

/-- Rewriting a range changes each of its cells by itself. -/
theorem rewriteRange_changes {e : Elements α} (hq : e.dtype.isQuantized = false)
    {start len : Nat} (g : Nat → α → α) (h : start + len ≤ e.size) :
    Changes cell? (fun e' : Elements α => e'.layout = e.layout) (rewriteRange start len g)
      (fun i => start ≤ i ∧ i < start + len) (recode e.dtype g) := by
  refine ⟨fun e' he' => (rewriteRange_layout ..).trans he', fun e' he' i hi => ?_,
    fun e' he' i hi => ?_⟩ <;>
  · have hq' : e'.dtype.isQuantized = false := dtype_eq_of_layout he' ▸ hq
    have hle : start + len ≤ e'.size := size_eq_of_layout he' ▸ h
    rw [rewriteRange, cell?_overwrite hq' (by rwa [Array.size_ofFn]), Array.size_ofFn]
    first
    | rw [if_pos hi, Array.getElem?_ofFn, dif_pos (by omega), Option.bind_some,
        dtype_eq_of_layout he']
      show Cell.encode? e.dtype (g (start + (i - start)) (e'.value (start + (i - start)))) = _
      rw [Nat.add_sub_cancel' hi.1]
      rfl
    | rw [if_neg hi]

end Elements

open Elements

/-- An update succeeds, keeps the layout, and makes float elements into `r`. -/
def Rewrites (u : Update (Elements α) Unit) (e r : Elements α) : Prop :=
  ∃ e', u e = .ok () e' ∧ e'.layout = e.layout ∧ (e.dtype.isQuantized = false → e' = r)

omit [Scalar α] in
theorem Rewrites.eq {u : Update (Elements α) Unit} {e r : Elements α} (h : Rewrites u e r)
    (hq : e.dtype.isQuantized = false) : u e = .ok () r := by
  obtain ⟨e', hu, -, he⟩ := h
  rw [hu, he hq]

omit [Scalar α] in
/-- A loop rewrites one range after the other. -/
theorem forM_rewrites {ι : Type} {ts : List ι} {u : ι → Update (Elements α) Unit}
    {k : Elements α → ι → Elements α} {e : Elements α}
    (h : ∀ t ∈ ts, ∀ e', e'.layout = e.layout → Rewrites (u t) e' (k e' t)) :
    Rewrites (ts.forM u) e (ts.foldl k e) := by
  induction ts generalizing e with
  | nil => exact ⟨e, rfl, rfl, fun _ => rfl⟩
  | cons t ts ih =>
    obtain ⟨e₁, hu, hlayout, he₁⟩ := h t List.mem_cons_self e rfl
    obtain ⟨e', hus, hlayout', he'⟩ := ih fun t' ht' e'' he'' =>
      h t' (List.mem_cons_of_mem _ ht') e'' (he''.trans hlayout)
    refine ⟨e', (forM_cons_ok hu).trans hus, hlayout'.trans hlayout, fun hq => ?_⟩
    rw [he' (dtype_eq_of_layout hlayout ▸ hq), he₁ hq, List.foldl_cons]

/-- The reference update of a range. -/
theorem Reference.updateWindow_rewrites {e : Elements α} (he : e.WellFormed) {start len : Nat}
    {f : Nat → α → Outcome α} {g : Nat → α → α} (h : start + len ≤ e.size)
    (hf : ∀ i < len, ∀ v, f i v = .ok (g (start + i) v)) :
    Rewrites (updateWindow start len f) e (e.rewriteRange start len g) := by
  have hmap : (e.run start len).mapIdxM f =
      .ok (Array.ofFn fun i : Fin len => g (start + i) (e.value (start + i))) := by
    rw [mapIdxM_of_ok (g := fun i => g (start + i)) fun i hi v => hf i (by simpa using hi) v]
    congr 1
    refine Array.ext (by simp) fun i hi _ => ?_
    simp [run]
  have hle : start + (Array.ofFn fun i : Fin len => g (start + i) (e.value (start + i))).size ≤
      e.size := by rwa [Array.size_ofFn]
  have hupdate : updateWindow start len f e =
      write start (Array.ofFn fun i : Fin len => g (start + i) (e.value (start + i))) e := by
    rw [updateWindow, read_eq_run he h, ok_bind, hmap]
  rw [Rewrites, hupdate]
  cases hq : e.dtype.isQuantized with
  | false => exact ⟨_, write_eq_overwrite hq he.fits hle, overwrite_layout .., fun _ => rfl⟩
  | true =>
    obtain ⟨e', hwrite, hlayout, -⟩ := write_blocks ⟨he, hq⟩ hle
    exact ⟨e', hwrite, hlayout, fun hfull => by cases hfull⟩

/-- The vectorized update of a range of full-precision elements. -/
theorem Vector.updateRun_rewrites {data : Array α} (he : (f32 data).WellFormed) {start len : Nat}
    {f : Array α → Outcome (Array α)} {g : Nat → α → α} (h : start + len ≤ data.size)
    (hf : f ((f32 data).run start len) =
      .ok (Array.ofFn fun i : Fin len => g (start + i) ((f32 data).value (start + i)))) :
    Rewrites (updateRun start len f) (.f32 data) ((f32 data).rewriteRange start len g) := by
  have hrun : data.extract start (start + len) = (f32 data).run start len :=
    (Buffer.cut_eq_ok.mp (cut_eq_run he h)).2.2.symm
  refine ⟨_, ?_, rewriteRange_layout .., fun _ => rfl⟩
  rw [updateRun, hrun, hf]
  rfl

end BlockTensor
