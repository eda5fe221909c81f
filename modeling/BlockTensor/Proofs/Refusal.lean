import BlockTensor.Proofs.Elementwise

/-!
# Refused operations leave their destination alone

An operation that reports an error has changed nothing: all that it can report
is found by its checks, before the first write. What follows the checks may stop
at a broken precondition but reports nothing. `Silent` says this of an outcome
and of an update, and composes along binds and loops.

* `Kernel.dot_silent`, `Elements.write_silent` and the like: reading, computing
  and writing are silent.
* `Compute` are the operations of a backend that write to a destination, and
  `Compute.check` is what each of them checks.
* `Compute.run_error_iff`: an operation reports exactly the errors of its check,
  and leaves its destination as it was.
-/

namespace BlockTensor

open Outcome Update

/-! ## Silence -/

namespace Outcome

variable {β γ ι : Type}

/-- No error is reported. -/
def Silent (x : Outcome β) : Prop := ∀ err, x ≠ .error (.error err)

theorem silent_ok (v : β) : Silent (.ok v) := nofun

theorem silent_stop (a : Abort) : Silent (stop a : Outcome β) := nofun

theorem Silent.bind {x : Outcome β} {f : β → Outcome γ} (h : Silent x)
    (hf : ∀ v, x = .ok v → Silent (f v)) : Silent (x >>= f) := by
  cases x with
  | ok v => exact hf v rfl
  | error fault => exact fun err he => h err (congrArg Except.error (Except.error.inj he))

theorem silent_foldlM {f : γ → ι → Outcome γ} (h : ∀ v i, Silent (f v i)) (v : γ) (is : List ι) :
    Silent (is.foldlM f v) := by
  induction is generalizing v with
  | nil => exact silent_ok v
  | cons i is ih =>
    rw [List.foldlM_cons]
    exact (h v i).bind fun w _ => ih w

theorem silent_mapM {f : ι → Outcome β} (h : ∀ i, Silent (f i)) (is : List ι) :
    Silent (is.mapM f) := by
  induction is with
  | nil => exact silent_ok []
  | cons i is ih =>
    rw [List.mapM_cons]
    exact (h i).bind fun v _ => ih.bind fun vs _ => silent_ok _

theorem silent_mapIdxM {f : Nat → β → Outcome γ} (h : ∀ i v, Silent (f i v)) (xs : Array β) :
    Silent (xs.mapIdxM f) := by
  have hgo : ∀ (ys : List β) (acc : Array γ), Silent (List.mapIdxM.go f ys acc) := by
    intro ys
    induction ys with
    | nil => exact fun acc => silent_ok _
    | cons y ys ih =>
      intro acc
      rw [List.mapIdxM.go]
      exact (h _ y).bind fun v _ => ih _
  cases xs with
  | mk ys =>
    rw [List.mapIdxM_toArray, map_eq_pure_bind]
    exact (hgo ys #[]).bind fun vs _ => silent_ok _

end Outcome

namespace Update

variable {σ β γ ι : Type}

/-- No error is reported, from any state. -/
def Silent (u : Update σ β) : Prop := ∀ s err s', u s ≠ .error (.error err) s'

theorem silent_pure (v : β) : Silent (pure v : Update σ β) := nofun

theorem silent_ofOutcome {x : Outcome β} (h : Outcome.Silent x) :
    Silent (ofOutcome x : Update σ β) := by
  intro s err s'
  cases x with
  | ok v => nofun
  | error fault =>
    intro he
    obtain ⟨rfl, -⟩ := EStateM.Result.error.inj he
    exact h err rfl

theorem Silent.bind {u : Update σ β} {k : β → Update σ γ} (h : Silent u)
    (hk : ∀ v, Silent (k v)) : Silent (u >>= k) := by
  intro s err s'
  simp only [Bind.bind, EStateM.bind]
  cases hu : u s with
  | ok v s₁ => exact hk v s₁ err s'
  | error fault s₁ =>
    intro he
    obtain ⟨rfl, rfl⟩ := EStateM.Result.error.inj he
    exact h s err s₁ hu

theorem silent_forM {is : List ι} {u : ι → Update σ Unit} (h : ∀ i, Silent (u i)) :
    Silent (is.forM u) := by
  induction is with
  | nil => exact silent_pure ()
  | cons i is ih => exact (h i).bind fun _ => ih

end Update

/-! ## Reading -/

section

variable {β : Type}

theorem Word.check_silent (n : Nat) : Outcome.Silent (check n) := by
  unfold check
  split
  · exact silent_ok n
  · exact silent_stop _

theorem Buffer.read_silent (a : Array β) (i : Nat) : Outcome.Silent (read a i) := by
  unfold read
  cases a[i]? with
  | some v => exact silent_ok v
  | none => exact silent_stop _

theorem Buffer.cut_silent (a : Array β) (lo hi : Nat) : Outcome.Silent (cut a lo hi) := by
  unfold cut
  split
  · exact silent_ok _
  · exact silent_stop _

theorem Buffer.generate_silent (start n : Nat) {f : Nat → Outcome β}
    (h : ∀ i, Outcome.Silent (f i)) : Outcome.Silent (generate start n f) := by
  rw [generate_eq_mapM]
  exact (silent_mapM h _).bind fun vs _ => silent_ok _

theorem checkRange_silent (start len held : Nat) : Outcome.Silent (checkRange start len held) := by
  refine (Word.check_silent _).bind fun stop _ => ?_
  split
  · exact silent_ok ()
  · exact silent_stop _

end

variable {α : Type} [Scalar α]

theorem Q8.value_silent (data : Array Int8) (scales : Array α) (i : Nat) :
    Outcome.Silent (value data scales i) :=
  (Buffer.read_silent data i).bind fun _ _ =>
    (Buffer.read_silent scales _).bind fun _ _ => silent_ok _

theorem Q4.value_silent (data : Array UInt8) (scales : Array α) (i : Nat) :
    Outcome.Silent (value data scales i) :=
  ((Buffer.read_silent data _).bind fun _ _ => silent_ok _).bind fun _ _ =>
    (Buffer.read_silent scales _).bind fun _ _ => silent_ok _

namespace Elements

theorem get_silent (e : Elements α) (i : Nat) : Outcome.Silent (e.get i) := by
  cases e with
  | f32 data => exact Buffer.read_silent data i
  | f16 data | bf16 data => exact (Buffer.read_silent data i).bind fun _ _ => silent_ok _
  | q8 data scales => exact Q8.value_silent data scales i
  | q4 data scales => exact Q4.value_silent data scales i

theorem read_silent (e : Elements α) (start len : Nat) : Outcome.Silent (e.read start len) := by
  refine (Word.check_silent _).bind fun stop _ => ?_
  cases e with
  | f32 data => exact Buffer.cut_silent data start stop
  | f16 data | bf16 data => exact (Buffer.cut_silent data start stop).bind fun _ _ => silent_ok _
  | q8 data scales => exact Buffer.generate_silent start len (Q8.value_silent data scales)
  | q4 data scales => exact Buffer.generate_silent start len (Q4.value_silent data scales)

/-! ## Writing -/

theorem writeBlock_silent (start : Nat) (src : Array α) (b : Nat) :
    Update.Silent (writeBlock start src b) := by
  intro e err e' he
  unfold writeBlock at he
  split at he
  · rename_i fault hread
    obtain ⟨rfl, -⟩ := EStateM.Result.error.inj he
    exact read_silent e _ _ err hread
  · cases he

theorem write_silent (start : Nat) (src : Array α) : Update.Silent (write start src) := by
  intro e err e' he
  unfold write at he
  split at he
  · rename_i fault hrange
    obtain ⟨rfl, -⟩ := EStateM.Result.error.inj he
    exact checkRange_silent _ _ _ err hrange
  · cases e with
    | f32 data | f16 data | bf16 data => cases he
    | q8 data scales | q4 data scales =>
      exact silent_forM (writeBlock_silent start src) _ _ _ he

end Elements

open Elements

/-! ## Computing -/

theorem Reference.dotElements_silent (a : Elements α) (aStart : Nat) (b : Elements α)
    (bStart len : Nat) : Outcome.Silent (dotElements a aStart b bStart len) :=
  silent_foldlM (fun _ _ => (get_silent a _).bind fun _ _ =>
    (get_silent b _).bind fun _ _ => silent_ok _) _ _

namespace Kernel

omit [Scalar α] in
theorem block_silent (q : Elements α) (b : Nat) : Outcome.Silent (block q b) := by
  cases q with
  | f32 data | f16 data | bf16 data => exact silent_stop _
  | q8 data scales | q4 data scales =>
    exact (Buffer.cut_silent data _ _).bind fun _ _ =>
      (Buffer.read_silent scales b).bind fun _ _ => silent_ok _

theorem dotBlocks_silent (data : Array Int8) (scales : Array α) (aStart : Nat) (b : Elements α)
    (bStart len : Nat) : Outcome.Silent (dotBlocks data scales aStart b bStart len) := by
  refine (silent_foldlM (fun acc k => ?_) _ _).bind fun head _ =>
    silent_foldlM (fun acc i => ?_) _ _
  · exact (block_silent _ _).bind fun _ _ => (block_silent b _).bind fun _ _ => silent_ok _
  · exact (Q8.value_silent data scales _).bind fun _ _ => (get_silent b _).bind fun _ _ =>
      silent_ok _

theorem dotQuantized_silent (x : Array α) (q : Elements α) (qStart : Nat) :
    Outcome.Silent (dotQuantized x q qStart) :=
  silent_foldlM (fun _ _ => (read_silent q _ _).bind fun _ _ => silent_ok _) _ _

theorem dotDecoded_silent (a : Elements α) (aStart : Nat) (b : Elements α) (bStart len : Nat) :
    Outcome.Silent (dotDecoded a aStart b bStart len) :=
  silent_foldlM (fun _ _ => (read_silent a _ _).bind fun _ _ =>
    (read_silent b _ _).bind fun _ _ => silent_ok _) _ _

theorem dotSupported_silent (a : Elements α) (aStart : Nat) (b : Elements α) (bStart len : Nat) :
    Outcome.Silent (dotSupported a aStart b bStart len) := by
  have hcut (x : Array α) (start : Nat) (q : Elements α) (qStart : Nat) :
      Outcome.Silent (do dotQuantized (← Buffer.cut x start (start + len)) q qStart) :=
    (Buffer.cut_silent x _ _).bind fun run _ => dotQuantized_silent run q qStart
  have hdecoded := dotDecoded_silent a aStart b bStart len
  unfold dotSupported
  dsimp only
  split
  · exact (Buffer.cut_silent _ _ _).bind fun _ _ => (Buffer.cut_silent _ _ _).bind fun _ _ =>
      silent_ok _
  · split <;> (try split) <;> first
      | exact dotBlocks_silent _ _ _ _ _ _
      | exact hcut _ _ _ _
      | exact hdecoded
  · split <;> (try split) <;> first
      | exact dotBlocks_silent _ _ _ _ _ _
      | exact hcut _ _ _ _
      | exact hdecoded
  · split
    · exact hcut _ _ _ _
    · exact hdecoded
  · exact hdecoded

/-- A pair with a kernel has a result. -/
theorem dot_silent {a b : Elements α} (h : supports a.dtype b.dtype = true) (op : String)
    (aStart bStart len : Nat) : Outcome.Silent (do
      let d ← dot a aStart b bStart len
      Vector.orUnsupported op a.dtype b.dtype d) := by
  rw [dot, if_pos h]
  refine ((dotSupported_silent a aStart b bStart len).bind fun d _ => silent_ok _).bind ?_
  intro d hd
  obtain ⟨v, -, hv⟩ := bind_eq_ok.mp hd
  obtain rfl := Except.ok.inj hv
  exact silent_ok v

end Kernel

namespace Vector

variable {a : Elements α} {b : View α}

theorem setDot_silent (h : Kernel.supports a.dtype b.dtype = true) (aStart : Nat)
    (w : BatchWindow) (row r : Nat) : Update.Silent (setDot a aStart b w row r) :=
  (silent_ofOutcome (Kernel.dot_silent h "batch_dot_product" _ _ _)).bind fun _ => nofun

theorem rowRun_silent (h : Kernel.supports a.dtype b.dtype = true) (aStart : Nat)
    (w : BatchWindow) (start : Nat) : Update.Silent (rowRun a aStart b w start) := fun run =>
  silent_forM (fun _ => setDot_silent h aStart w _ _) run

theorem batchRow_silent (p : Pool) (h : Kernel.supports a.dtype b.dtype = true) (aStart : Nat)
    (w : BatchWindow) : Update.Silent (batchRow p a aStart b w) := by
  intro row err row'
  unfold batchRow
  split
  · refine silent_forM (fun t s err s' => ?_) row err row'
    unfold Pool.updateChunk
    cases hrun : rowRun a aStart b w (t * _) (Buffer.chunk s _ t) with
    | ok v run => nofun
    | error fault run =>
      intro he
      obtain ⟨rfl, -⟩ := EStateM.Result.error.inj he
      exact rowRun_silent h aStart w _ _ err run hrun
  · exact rowRun_silent h aStart w 0 row err row'

theorem batchRowInto_silent (p : Pool) (result : Shape) {a b : View α}
    (h : Kernel.supports a.dtype b.dtype = true) (w : BatchWindow) (i : Nat) :
    Update.Silent (batchRowInto p result a b w i) := by
  intro e err e'
  have hrow := batchRow_silent p h (i * a.shape.last + w.aColumn) w
  unfold batchRowInto
  dsimp only
  split
  · split
    · nofun
    · rename_i fault run heq
      intro he
      obtain ⟨rfl, -⟩ := EStateM.Result.error.inj he
      exact hrow _ err run heq
  · split
    · exact write_silent _ _ e err e'
    · rename_i fault run heq
      intro he
      obtain ⟨rfl, -⟩ := EStateM.Result.error.inj he
      exact hrow _ err run heq

omit [Scalar α] in
theorem updateRun_silent (start len : Nat) {f : Array α → Outcome (Array α)}
    (hf : ∀ run, Outcome.Silent (f run)) : Update.Silent (updateRun start len f) := by
  intro e err e'
  cases e with
  | f32 data =>
    unfold updateRun
    dsimp only
    split
    · nofun
    · rename_i fault heq
      intro he
      obtain ⟨rfl, -⟩ := EStateM.Result.error.inj he
      exact hf _ err heq
  | _ => nofun

end Vector

theorem Reference.updateWindow_silent (start len : Nat) {f : Nat → α → Outcome α}
    (hf : ∀ i v, Outcome.Silent (f i v)) : Update.Silent (updateWindow start len f) := by
  intro e err e'
  have hread : Outcome.Silent (do (← e.read start len).mapIdxM f) :=
    (read_silent e start len).bind fun values _ => silent_mapIdxM hf values
  unfold updateWindow
  split
  · rename_i fault heq
    intro he
    obtain ⟨rfl, -⟩ := EStateM.Result.error.inj he
    exact hread err heq
  · exact write_silent _ _ e err e'

theorem Reference.batchElement_silent (result : Shape) (a b : View α) (w : BatchWindow)
    (i r : Nat) : Update.Silent (batchElement result a b w i r) :=
  (silent_ofOutcome (dotElements_silent _ _ _ _ _)).bind fun d => write_silent _ #[d]

/-! ## Checks before everything else -/

section

variable {σ β γ : Type}

/-- From state `s`, an update fails where `check` does, having changed nothing,
and reports nothing else. -/
structure Guarded (u : Update σ β) (check : Outcome γ) (s : σ) : Prop where
  refused : ∀ fault, check = .error fault → u s = .error fault s
  silent : ∀ v, check = .ok v → ∀ err s', u s ≠ .error (.error err) s'

/-- What a guarded update reports is what its check reports. -/
theorem Guarded.error_iff {u : Update σ β} {check : Outcome γ} {s s' : σ} {err : TensorError}
    (h : Guarded u check s) :
    u s = .error (.error err) s' ↔ check = .error (.error err) ∧ s' = s := by
  constructor
  · intro hu
    cases hc : check with
    | ok v => exact absurd hu (h.silent v hc err s')
    | error fault =>
      rw [h.refused fault hc] at hu
      obtain ⟨rfl, rfl⟩ := EStateM.Result.error.inj hu
      exact ⟨rfl, rfl⟩
  · rintro ⟨hc, rfl⟩
    exact h.refused _ hc

theorem guarded_bind {check : Outcome γ} {k : γ → Update σ β} {s : σ}
    (h : ∀ v, check = .ok v → Update.Silent (k v)) : Guarded (ofOutcome check >>= k) check s where
  refused fault hc := by
    rw [hc]
    rfl
  silent v hc err s' := by
    rw [hc]
    exact h v hc s err s'

/-- Only what an update does from the state matters. -/
theorem Guarded.congr {u u' : Update σ β} {check : Outcome γ} {s : σ} (h : Guarded u' check s)
    (hu : u s = u' s) : Guarded u check s where
  refused fault hc := hu.trans (h.refused fault hc)
  silent v hc err s' := hu ▸ h.silent v hc err s'

/-- A second check may follow the first, and use its value. -/
theorem Guarded.after {δ : Type} {first : Outcome δ} {check : δ → Outcome γ}
    {u : δ → Update σ β} {s : σ} (h : ∀ v, Guarded (u v) (check v) s) :
    Guarded (ofOutcome first >>= u) (first >>= check) s := by
  cases first with
  | error fault =>
    refine ⟨fun fault' hc => ?_, nofun⟩
    obtain rfl := Except.error.inj hc
    rfl
  | ok v => exact h v

/-- Checks that fail alike guard alike. -/
theorem Guarded.of_errors {δ : Type} {check : Outcome γ} {check' : Outcome δ} {u : Update σ β}
    {s : σ} (h : Guarded u check s)
    (hsame : ∀ fault, check' = .error fault ↔ check = .error fault) : Guarded u check' s where
  refused fault hc := h.refused fault ((hsame fault).mp hc)
  silent v hc := by
    cases hcheck : check with
    | error fault => exact absurd (hc.symm.trans ((hsame fault).mpr hcheck)) nofun
    | ok w => exact h.silent w hcheck

/-- The value of a check may be left out. -/
theorem Guarded.discard {check : Outcome γ} {u : Update σ β} {s : σ} (h : Guarded u check s) :
    Guarded u (do let _ ← check; return () : Outcome Unit) s :=
  h.of_errors fun fault => by cases check <;> simp [bind, Except.bind]

/-- So may the value of the update. -/
theorem Guarded.result {δ : Type} {check : Outcome γ} {u : Update σ β} {s : σ} (v : δ)
    (h : Guarded u check s) : Guarded (do let _ ← u; return v) check s where
  refused fault hc := by
    simp only [bind, EStateM.bind, h.refused fault hc]
  silent w hc err s' := by
    have hu := h.silent w hc err
    simp only [bind, EStateM.bind]
    cases hr : u s with
    | ok _ s₁ => nofun
    | error fault s₁ =>
      intro he
      obtain ⟨rfl, rfl⟩ := EStateM.Result.error.inj he
      exact hu s₁ hr

end

namespace Elementwise

theorem source_silent (f : α → α → α) (e : Elements α) (i : Nat) (v : α) :
    Outcome.Silent (do return f v (← e.get i)) :=
  (get_silent e i).bind fun _ _ => silent_ok _

theorem combineRows_guarded (op : String) (f : α → α → α) (src : View α) (offset len : Nat)
    (dst : Shape) (e : Elements α) :
    Guarded (Reference.combineRows op f src offset len dst) (checkRows op dst src offset len) e :=
  guarded_bind fun _ _ => silent_forM fun _ =>
    Reference.updateWindow_silent _ _ fun _ v => source_silent f src.elems _ v

theorem reference_guarded (op : Elementwise α) (dst : Shape) (e : Elements α) :
    Guarded (op.run .reference dst) (op.check dst) e := by
  cases op with
  | accumulate src offset len | maccumulate src offset len =>
    exact (combineRows_guarded _ _ src offset len dst e).discard
  | scale factor offset len =>
    exact guarded_bind fun _ _ => silent_forM fun _ =>
      Reference.updateWindow_silent _ _ fun _ _ => silent_ok _
  | saxpy c x xOffset yOffset limit | sxpby c x xOffset yOffset limit =>
    exact (guarded_bind fun _ _ => Reference.updateWindow_silent _ _ fun _ _ =>
      (get_silent _ _).bind fun _ _ => silent_ok _).discard

theorem vector_guarded (p : Pool) (op : Elementwise α) (dst : Shape) (e : Elements α) :
    Guarded (op.run (.vector p) dst) (op.check dst) e := by
  by_cases hd : e.dtype = .f32
  · cases op with
    | accumulate src offset len | maccumulate src offset len =>
      exact (Guarded.congr (guarded_bind fun _ _ => silent_forM fun _ =>
        Vector.updateRun_silent _ _ fun _ => (read_silent _ _ _).bind fun _ _ => silent_ok _)
        (if_pos hd)).discard
    | scale factor offset len =>
      exact Guarded.congr (guarded_bind fun _ _ => silent_forM fun _ =>
        Vector.updateRun_silent _ _ fun _ => silent_ok _) (if_pos hd)
    | saxpy c x xOffset yOffset limit | sxpby c x xOffset yOffset limit =>
      exact (Guarded.congr (guarded_bind fun _ _ => Vector.updateRun_silent _ _ fun _ =>
        (read_silent _ _ _).bind fun _ _ => silent_ok _) (if_pos hd)).discard
  · exact (reference_guarded op dst e).congr (vector_of_dtype_ne p op dst hd)

theorem guarded (be : Backend α) (op : Elementwise α) (dst : Shape) (e : Elements α) :
    Guarded (op.run be dst) (op.check dst) e := by
  obtain hbe | ⟨p, hbe⟩ := run_eq_or be op dst
  · exact (reference_guarded op dst e).congr (by rw [hbe])
  · exact (vector_guarded p op dst e).congr (by rw [hbe])

end Elementwise

/-! ## All operations -/

/-- The operations of a backend that write to a destination. -/
inductive Compute (α : Type)
  | batchDotProduct (a b : View α) (w : BatchWindow)
  | elementwise (op : Elementwise α)

namespace Compute

/-- The operation of a backend. -/
def run (be : Backend α) (dst : Shape) : Compute α → Update (Elements α) Unit
  | batchDotProduct a b w => do
    let _ ← be.batchDotProduct a b w dst
    return ()
  | elementwise op => op.run be dst

/-- What an operation checks of a destination in encoding `d` before it writes.
All check the operands and their windows; the vectorized operations also that
there is a kernel for the pair, and the native ones that a kernel's integers hold
the layout and the kernel can store its results. -/
def check (be : Backend α) (dst : Shape) (d : DType) : Compute α → Outcome Unit
  | batchDotProduct a b w => do
    checkBatch dst a b w
    match be with
    | .reference => return ()
    | .vector _ => Vector.checkSupported "batch_dot_product" a.dtype b.dtype
    | .native _ =>
      match Gemm.plan a.dtype b.dtype d a.shape.last b.shape.last w with
      | none => Vector.checkSupported "batch_dot_product" a.dtype b.dtype
      | some _ =>
        let _ ← GemmLayout.of dst a b w
        Native.checkDestination a.dtype d
  | elementwise op => op.check dst

section

variable (a b : View α) (w : BatchWindow) (dst : Shape) (e : Elements α)

omit [Scalar α] in
theorem supports_of_checkSupported {op : String} {d d' : DType} {u : Unit}
    (h : Vector.checkSupported op d d' = .ok u) : Kernel.supports d d' = true := by
  unfold Vector.checkSupported at h
  split at h
  · assumption
  · exact absurd h (fail_ne_ok _ _)

theorem vector_guarded (p : Pool) :
    Guarded (Vector.batchDotProduct p a b w dst)
      (do checkBatch dst a b w; Vector.checkSupported "batch_dot_product" a.dtype b.dtype) e :=
  .after fun _ => guarded_bind fun _ hs => silent_forM fun i =>
    Vector.batchRowInto_silent p dst (supports_of_checkSupported hs) w i

/-- The calls of native kernels report nothing. -/
theorem native_guarded (n : Native α) :
    Guarded (n.batchDotProduct a b w dst)
      (Compute.check (.native n) dst e.dtype (.batchDotProduct a b w)) e := by
  rw [check]
  cases hc : checkBatch dst a b w with
  | error fault =>
    refine ⟨fun fault' hf => ?_, nofun⟩
    obtain rfl := Except.error.inj hf
    rw [Native.batchDotProduct, hc]
  | ok _ =>
    cases hp : Gemm.plan a.dtype b.dtype e.dtype a.shape.last b.shape.last w with
    | none =>
      have h := (vector_guarded a b w dst e n.pool).result ([] : List GemmCall)
      rw [hc] at h
      exact h.congr (by rw [Native.batchDotProduct, hc, hp])
    | some g =>
      let layout : Outcome GemmLayout := do
        let layout ← GemmLayout.of dst a b w
        Native.checkDestination a.dtype e.dtype
        return layout
      let k (l : GemmLayout) : Update (Elements α) (List GemmCall) := fun e =>
        let calls := n.calls g e.dtype l w
        .ok calls (calls.foldl (fun r c => n.table.run c a.elems b.elems r) e)
      have hrun : n.batchDotProduct a b w dst e = (ofOutcome layout >>= k) e := by
        rw [Native.batchDotProduct, hc, hp]
        dsimp only [layout]
        cases GemmLayout.of dst a b w with
        | error fault => rfl
        | ok l => cases Native.checkDestination a.dtype e.dtype <;> rfl
      have hsilent (l : GemmLayout) : Update.Silent (k l) := fun _ _ _ => nofun
      have hguard : Guarded (n.batchDotProduct a b w dst) layout e :=
        (guarded_bind fun l _ => hsilent l).congr hrun
      have hsame (fault : Fault) :
          (do let _ ← GemmLayout.of dst a b w; Native.checkDestination a.dtype e.dtype) =
            .error fault ↔ layout = .error fault := by
        dsimp only [layout]
        cases GemmLayout.of dst a b w with
        | error fault' => exact ⟨fun h => by cases h; rfl, fun h => by cases h; rfl⟩
        | ok l => cases Native.checkDestination a.dtype e.dtype <;> simp [bind, Except.bind]
      exact hguard.of_errors hsame

theorem batchDotProduct_guarded (be : Backend α) :
    Guarded (Compute.run be dst (.batchDotProduct a b w))
      (Compute.check be dst e.dtype (.batchDotProduct a b w)) e := by
  cases be with
  | reference =>
    exact ((guarded_bind fun _ _ => silent_forM fun i => silent_forM fun r =>
      Reference.batchElement_silent dst a b w i r).discard.result []).result ()
  | vector p => exact ((vector_guarded a b w dst e p).result []).result ()
  | native n => exact (native_guarded a b w dst e n).result ()

end

/-- An operation reports exactly the errors of its check, and then it leaves its
destination as it was. -/
theorem run_error_iff (be : Backend α) (c : Compute α) (dst : Shape) (e e' : Elements α)
    (err : TensorError) :
    c.run be dst e = .error (.error err) e' ↔
      c.check be dst e.dtype = .error (.error err) ∧ e' = e := by
  cases c with
  | batchDotProduct a b w => exact (batchDotProduct_guarded a b w dst e be).error_iff
  | elementwise op => exact (Elementwise.guarded be op dst e).error_iff

end Compute

end BlockTensor
