import BlockTensor.Proofs.SaxpyRows
import BlockTensor.Proofs.TensorCopy

/-!
# Windows that may be anything

Offsets and lengths come from the caller. Each operation compares the ends of its windows with the
sizes that they must stay within before it touches an element. But an end is a sum of words, and
where it does not fit in a word the comparison is never made.

* A `Gate` is the check of a window, or another check before it. Of gates in a row, a window beyond
  its size is reported unless one is reached that overflows (`Overflows`, `passAll_of_exceeds`).
* `Windowed` are the operations on windows, and `Windowed.gates` what stands before each: an
  operation fails as its gates do (`Windowed.gated`).
* `Windowed.outcome_of_exceeds`: an operation with a window beyond its size overflows if it comes to
  a window that ends beyond the words, and reports an error otherwise.
-/

namespace BlockTensor

open Outcome Update

/-! ## Gates -/

/-- The run of `len` elements from `offset` on, of `size` elements. -/
structure Window where
  offset : Nat
  len : Nat
  size : Nat

namespace Window

def stop (w : Window) : Nat := w.offset + w.len

/-- The run goes beyond the elements there are. -/
def Exceeds (w : Window) : Prop := w.size < w.stop

instance (w : Window) : Decidable w.Exceeds := inferInstanceAs (Decidable (w.size < w.stop))

end Window

/-- What an operation passes before it goes on. -/
inductive Gate
  /-- The check of a window, and what is reported if it goes beyond its size. -/
  | window (w : Window) (refusal : TensorError)
  | other (check : Outcome Unit)

namespace Gate

/-- The check of a window of a compute operation. -/
def compute (op : String) (size offset len : Nat) : Gate :=
  window ⟨offset, len, size⟩ (.invalidShape (.window op offset len size))

/-- The check of a window of a leading dimension, or of a copy. -/
def index (size offset len : Nat) : Gate :=
  window ⟨offset, len, size⟩ (.indexOutOfRange (offset + len) 0 size)

def window? : Gate → Option Window
  | window w _ => some w
  | other _ => none

def pass : Gate → Outcome Unit
  | window w refusal => do
    let stop ← Word.add w.offset w.len
    if stop ≤ w.size then return () else .fail refusal
  | other check => check

variable {w : Window} {refusal : TensorError}

theorem pass_of_le (h : Word.bound ≤ w.stop) : (window w refusal).pass = .stop .overflow := by
  rw [pass, Word.add_of_le h]
  rfl

theorem pass_of_lt (h : w.stop < Word.bound) :
    (window w refusal).pass = if w.stop ≤ w.size then .ok () else .fail refusal := by
  rw [pass, Word.add_of_lt h]
  rfl

theorem pass_index (size offset len : Nat) :
    (index size offset len).pass = checkCopyWindow size offset len := by
  by_cases h : offset + len < Word.bound
  · rw [checkCopyWindow, Word.add_of_lt h]
    exact pass_of_lt h
  · rw [checkCopyWindow, Word.add_of_le (Nat.le_of_not_lt h)]
    exact pass_of_le (Nat.le_of_not_lt h)

/-- What passes fits. -/
theorem not_exceeds_of_pass {g : Gate} (h : g.pass = .ok ()) : ∀ w ∈ g.window?, ¬w.Exceeds := by
  cases g with
  | other => exact nofun
  | window w refusal =>
    intro w' hw
    obtain rfl := Option.some.inj hw
    by_cases hstop : w.stop < Word.bound
    · rw [pass_of_lt hstop] at h
      split at h
      · exact Nat.not_lt.mpr ‹_›
      · exact absurd h (fail_ne_ok _ _)
    · rw [pass_of_le (Nat.le_of_not_lt hstop)] at h
      exact absurd h (stop_ne_ok _ _)

end Gate

/-- All gates, up to the first that fails. -/
def passAll (gates : List Gate) : Outcome Unit := gates.forM Gate.pass

theorem passAll_cons (g : Gate) (gates : List Gate) :
    passAll (g :: gates) = (do g.pass; passAll gates) := rfl

theorem passAll_singleton (g : Gate) : passAll [g] = g.pass := bind_pure g.pass

/-- Past all gates before it, a window is reached that ends beyond the words. -/
inductive Overflows : List Gate → Prop
  | here {w refusal gates} : Word.bound ≤ w.stop → Overflows (.window w refusal :: gates)
  | later {g gates} : g.pass = .ok () → Overflows gates → Overflows (g :: gates)

/-- As far as they are reached, the other checks do not abort. -/
def Reported : List Gate → Prop
  | [] => True
  | g :: gates => (∀ check, g = .other check → Reports check) ∧ (g.pass = .ok () → Reported gates)

theorem Reported.window {w : Window} {refusal : TensorError} {gates : List Gate}
    (h : Reported gates) : Reported (.window w refusal :: gates) := ⟨nofun, fun _ => h⟩

theorem Reported.other {check : Outcome Unit} {gates : List Gate} (hcheck : Reports check)
    (h : check = .ok () → Reported gates) : Reported (.other check :: gates) :=
  ⟨fun _ hother => Gate.other.inj hother ▸ hcheck, h⟩

/-- Gates do not overflow if no window ends beyond the words. -/
theorem not_overflows {gates : List Gate}
    (h : ∀ w ∈ gates.filterMap Gate.window?, w.stop < Word.bound) : ¬Overflows gates := by
  intro hover
  induction hover with
  | here hstop =>
    exact Nat.not_lt.mpr hstop (h _ (List.mem_filterMap.mpr ⟨_, List.mem_cons_self, rfl⟩))
  | later _ _ ih =>
    refine ih fun w hw => ?_
    obtain ⟨g, hg, hwindow⟩ := List.mem_filterMap.mp hw
    exact h w (List.mem_filterMap.mpr ⟨g, List.mem_cons_of_mem _ hg, hwindow⟩)

theorem passAll_of_overflows {gates : List Gate} (h : Overflows gates) :
    passAll gates = .stop .overflow := by
  induction h with
  | here hstop =>
    rw [passAll_cons, Gate.pass_of_le hstop]
    rfl
  | later hpass _ ih => rw [passAll_cons, hpass, ok_bind, ih]

theorem reports_pass {g : Gate} {gates : List Gate} (h : Reported (g :: gates))
    (hno : ¬Overflows (g :: gates)) : Reports g.pass := by
  cases g with
  | other check => exact h.1 check rfl
  | window w refusal =>
    rw [Gate.pass_of_lt (Nat.lt_of_not_le fun hstop => hno (.here hstop))]
    split <;> trivial

/-- Where a window goes beyond its size, gates that do not overflow report an error. -/
theorem passAll_of_exceeds {gates : List Gate} (hreported : Reported gates)
    (h : ∃ w ∈ gates.filterMap Gate.window?, w.Exceeds) (hno : ¬Overflows gates) :
    ∃ err, passAll gates = .fail err := by
  induction gates with
  | nil => exact absurd h.choose_spec.1 List.not_mem_nil
  | cons g gates ih =>
    have hpass := reports_pass hreported hno
    rw [passAll_cons]
    rcases hg : g.pass with (err | a) | _
    · exact ⟨err, rfl⟩
    · rw [hg] at hpass
      exact hpass.elim
    · refine ih (hreported.2 hg) ?_ fun hgates => hno (.later hg hgates)
      obtain ⟨w, hw, hexceeds⟩ := h
      obtain ⟨g', hg', hwindow⟩ := List.mem_filterMap.mp hw
      rcases List.mem_cons.mp hg' with rfl | hg'
      · exact absurd hexceeds (Gate.not_exceeds_of_pass hg w hwindow)
      · exact ⟨w, List.mem_filterMap.mpr ⟨g', hg', hwindow⟩, hexceeds⟩

namespace Outcome

variable {β γ δ : Type}

/-- One outcome fails as another does. -/
def FailsAs (x : Outcome β) (y : Outcome γ) : Prop := ∀ fault, y = .error fault → x = .error fault

theorem failsAs_ok {x : Outcome β} {v : γ} : FailsAs x (.ok v) := nofun

theorem failsAs_fail (err : TensorError) :
    FailsAs (fail err : Outcome β) (fail err : Outcome γ) := by
  rintro _ ⟨⟩
  rfl

theorem FailsAs.bind {x : Outcome β} {y : Outcome γ} (h : FailsAs x y) (k : β → Outcome δ) :
    FailsAs (x >>= k) y := by
  intro fault hy
  rw [h fault hy]
  rfl

theorem FailsAs.congr {x : Outcome β} {f : β → Outcome γ} {g : β → Outcome δ}
    (h : ∀ v, x = .ok v → FailsAs (f v) (g v)) : FailsAs (x >>= f) (x >>= g) := by
  intro fault hg
  cases hx : x with
  | error fault' =>
    rw [hx] at hg
    obtain rfl := Except.error.inj hg
    rfl
  | ok v =>
    rw [hx] at hg
    exact h v hx fault hg

theorem Reports.discard {x : Outcome β} (h : Reports x) :
    Reports (do let _ ← x; return () : Outcome Unit) := by
  rcases x with (err | a) | v
  · trivial
  · exact h
  · trivial

end Outcome

/-- An outcome behind gates: it fails as they do. -/
def Gated {β : Type} (gates : List Gate) (x : Outcome β) : Prop := FailsAs x (passAll gates)

namespace Gated

variable {β γ : Type} {g : Gate} {gates : List Gate} {x : Outcome β}

theorem nil : Gated [] x := failsAs_ok

theorem bind (h : Gated gates x) (k : β → Outcome γ) : Gated gates (x >>= k) := FailsAs.bind h k

theorem cons {k : Unit → Outcome β} (h : Gated gates (k ())) :
    Gated (g :: gates) (g.pass >>= k) := FailsAs.congr fun _ _ => h

theorem last : Gated [g] g.pass := fun _ h => (passAll_singleton g).symm.trans h

/-- A check is passed first if its failures are failures of the whole. -/
theorem other {check : Outcome Unit} (hcheck : FailsAs x check)
    (h : check = .ok () → Gated gates x) : Gated (.other check :: gates) x := by
  intro fault hgates
  rw [passAll_cons, Gate.pass] at hgates
  cases hc : check with
  | error fault' =>
    rw [hc] at hgates
    obtain rfl := Except.error.inj hgates
    exact hcheck _ hc
  | ok _ =>
    rw [hc] at hgates
    exact h hc fault hgates

/-- The check of a window, as a compute operation makes it. -/
theorem window {op : String} {size offset len : Nat} {k : Unit → Outcome β}
    (h : Gated gates (k ())) :
    Gated (.compute op size offset len :: gates) (checkWindow op size offset len >>= k) :=
  cons h

end Gated

/-! ## Operations on windows -/

variable {α : Type} [Scalar α]

namespace Elementwise

/-- The source has the rows of the destination, or one row for all of them. -/
def checkSource (dst : Shape) (src : View α) : Outcome Unit := do
  let _ ← src.contiguous
  if src.shape.last ≠ dst.last ∨ ¬(src.shape.rowCount = dst.rowCount ∨ src.shape.rowCount = 1) then
    .fail (.shapeMismatch dst.dims src.shape.dims)
  else return ()

def gates (dst : Shape) : Elementwise α → List Gate
  | accumulate src offset len =>
    [.other (checkSource dst src), .compute "accumulate" dst.last offset len]
  | maccumulate src offset len =>
    [.other (checkSource dst src), .compute "maccumulate" dst.last offset len]
  | scale _ offset len => [.compute "scale" dst.last offset len]
  | saxpy _ x xOffset yOffset limit =>
    [.compute "saxpy" x.size xOffset limit, .compute "saxpy" dst.size yOffset limit]
  | sxpby _ x xOffset yOffset limit =>
    [.compute "sxpby" x.size xOffset limit, .compute "sxpby" dst.size yOffset limit]

end Elementwise

/-- The operands of a batched dot product are matrices that fit together, each in one piece. -/
def checkOperands (result : Shape) (a b : View α) : Outcome Unit := do
  checkMatrix "result" result
  checkMatrix "a" a.shape
  checkMatrix "b" b.shape
  if a.shape.first ≠ result.first then
    .fail (.shapeMismatch [a.shape.first, result.last] result.dims)
  let _ ← a.contiguous
  let _ ← b.contiguous
  return ()

def Compute.gates (dst : Shape) : Compute α → List Gate
  | batchDotProduct a b w =>
    [.other (checkOperands dst a b),
      .compute "batch_dot_product" a.shape.last w.aColumn w.columns,
      .compute "batch_dot_product" b.shape.last w.bColumn w.columns,
      .compute "batch_dot_product" b.shape.first w.bRow w.rowChunk,
      .compute "batch_dot_product" dst.last w.rColumn w.rowChunk]
  | elementwise op => op.gates dst

/-- The first row of a batched multiply-add and its weight are there. -/
def checkFirstRow (alpha x : View α) (rows : RowSpan) : Outcome Unit := do
  let alphas ← alpha.contiguous
  let _ ← x.slice rows.xRow
  let _ ← alphas.get rows.alphaOffset
  return ()

/-- The operations that take windows. -/
inductive Windowed (α : Type)
  | dotProduct (a b : View α) (aOffset bOffset len : Nat)
  | compute (op : Compute α) (dst : Target α)
  | saxpyRows (alpha x : View α) (xOffset yOffset limit : Nat) (rows : RowSpan) (y : Target α)
  | quantize (t : View α) (d : DType) (offset len : Nat)
  | narrow (v : View α) (start count : Nat)
  | copyFrom (src : View α) (source start len : Nat) (dst : Tensor α)

namespace Windowed

/-- What stands before an operation. A batched multiply-add comes to the windows of its rows with
the first row, and they are the same for all. -/
def gates : Windowed α → List Gate
  | dotProduct a b aOffset bOffset len =>
    [.compute "dot_product" a.size aOffset len, .compute "dot_product" b.size bOffset len]
  | compute op dst => op.gates dst.shape
  | saxpyRows alpha x xOffset yOffset limit rows y =>
    .compute "saxpy_rows" alpha.size rows.alphaOffset rows.rows ::
    .compute "saxpy_rows" x.shape.first rows.xRow rows.rows ::
    if 0 < rows.rows then
      [.other (checkFirstRow alpha x rows), .compute "saxpy" x.rowSize xOffset limit,
        .compute "saxpy" y.shape.size yOffset limit]
    else []
  | quantize t _ offset len => [.compute "quantize" t.shape.last offset len]
  | narrow v start count =>
    [.other (do let _ ← v.contiguous; return ()), .index v.shape.first start count]
  | copyFrom src source start len dst =>
    [.other (do let _ ← dst.target; return ()), .index dst.shape.size start len,
      .index src.size source len]

/-- The windows of an operation. -/
def windows (op : Windowed α) : List Window := op.gates.filterMap Gate.window?

/-- What an operation returns, its value aside. -/
def outcome (be : Backend α) : Windowed α → Outcome Unit
  | dotProduct a b aOffset bOffset len => do
    let _ ← be.dotProduct a b aOffset bOffset len
    return ()
  | compute op dst => ((Target.update (op.run be)).exec dst).1
  | saxpyRows alpha x xOffset yOffset limit rows y =>
    ((Target.update (be.saxpyRows alpha x xOffset yOffset limit rows)).exec y).1
  | quantize t d offset len => do
    let _ ← be.quantize t d offset len
    return ()
  | narrow v start count => do
    let _ ← v.narrow start count
    return ()
  | copyFrom src source start len dst => ((Tensor.copyFrom src source start len).exec dst).1

/-- What an operation looks at before its windows is as it was made. -/
def WellFormed : Windowed α → Prop
  | saxpyRows alpha x .. => alpha.WellFormed ∧ x.WellFormed
  | copyFrom _ _ _ _ dst => dst.WellFormed
  | _ => True

end Windowed

/-! ## What stands before them -/

section

variable (be : Backend α)

theorem dotProduct_gated (a b : View α) (aOffset bOffset len : Nat) :
    Gated (Windowed.dotProduct a b aOffset bOffset len).gates
      (be.dotProduct a b aOffset bOffset len) := by
  cases be <;> exact .window (.window .nil)

theorem quantize_gated (t : View α) (d : DType) (offset len : Nat) :
    Gated (Windowed.quantize t d offset len).gates (be.quantize t d offset len) := by
  have h : Gated (Windowed.quantize t d offset len).gates (maskedValues t offset len) :=
    .window .nil
  cases be <;> exact h.bind _

end

omit [Scalar α] in
theorem checkRows_gated (op : String) (dst : Shape) (src : View α) (offset len : Nat) :
    Gated [.other (Elementwise.checkSource dst src), .compute op dst.last offset len]
      (checkRows op dst src offset len) := by
  have h : checkRows op dst src offset len = (do
      Elementwise.checkSource dst src
      checkWindow op dst.last offset len
      return !decide (src.shape.rowCount = dst.rowCount)) := by
    unfold checkRows Elementwise.checkSource
    cases src.contiguous with
    | error fault => rfl
    | ok _ =>
      simp only [ok_bind, decide_eq_true_eq]
      split <;> rfl
  rw [h]
  exact .cons (.window .nil)

omit [Scalar α] in
theorem Elementwise.check_gated (dst : Shape) (op : Elementwise α) :
    Gated (op.gates dst) (op.check dst) := by
  cases op with
  | accumulate src offset len | maccumulate src offset len =>
    exact (checkRows_gated _ dst src offset len).bind _
  | scale factor offset len => exact .last
  | saxpy _ x xOffset yOffset limit | sxpby _ x xOffset yOffset limit =>
    exact Gated.bind (.window (.window .nil)) _

omit [Scalar α] in
theorem checkBatch_gated (dst : Shape) (a b : View α) (w : BatchWindow) :
    Gated ((Compute.batchDotProduct a b w).gates dst) (checkBatch dst a b w) := by
  have h : checkBatch dst a b w = (do
      checkOperands dst a b
      checkWindow "batch_dot_product" a.shape.last w.aColumn w.columns
      checkWindow "batch_dot_product" b.shape.last w.bColumn w.columns
      checkWindow "batch_dot_product" b.shape.first w.bRow w.rowChunk
      checkWindow "batch_dot_product" dst.last w.rColumn w.rowChunk) := by
    unfold checkBatch checkOperands
    simp only [bind_assoc]
    refine bind_congr fun _ => bind_congr fun _ => bind_congr fun _ => ?_
    split
    · rfl
    · simp only [bind_assoc]
      rfl
  rw [h]
  exact .cons (.window (.window (.window .last)))

omit [Scalar α] in
theorem Compute.check_gated (be : Backend α) (dst : Shape) (d : DType) (op : Compute α) :
    Gated (op.gates dst) (op.check be dst d) := by
  cases op with
  | batchDotProduct a b w => exact (checkBatch_gated dst a b w).bind _
  | elementwise op => exact Elementwise.check_gated dst op

namespace Update

variable {σ β γ δ : Type} {s : σ}

/-- From a state, an update fails where a check does, having changed nothing. -/
def Refuses (u : Update σ β) (check : Outcome γ) (s : σ) : Prop :=
  ∀ fault, check = .error fault → u s = .error fault s

theorem Refuses.after {first : Outcome δ} {check : δ → Outcome γ} {u : δ → Update σ β}
    (h : ∀ v, Refuses (u v) (check v) s) :
    Refuses (ofOutcome first >>= u) (first >>= check) s := by
  intro fault hcheck
  cases first with
  | error fault' =>
    obtain rfl := Except.error.inj hcheck
    rfl
  | ok v => exact h v fault hcheck

/-- A loop refuses what its first round does. -/
theorem Refuses.forM_range {check : Outcome Unit} {u : Nat → Update σ Unit} {n : Nat}
    (h : Refuses (u 0) check s) :
    Refuses ((List.range n).forM u) (if 0 < n then check else return ()) s := by
  intro fault hcheck
  cases n with
  | zero => cases hcheck
  | succ n =>
    rw [if_pos n.succ_pos] at hcheck
    rw [List.range_succ_eq_map]
    show (u 0 >>= fun _ => _) s = _
    simp only [Bind.bind, EStateM.bind, h fault hcheck]

end Update

theorem Compute.run_refuses (be : Backend α) (op : Compute α) (dst : Target α) :
    Refuses (op.run be dst.shape) (op.check be dst.shape dst.dtype) dst.segment.elems := by
  cases op with
  | batchDotProduct a b w => exact (batchDotProduct_guarded a b w dst.shape _ be).refused
  | elementwise op => exact (Elementwise.guarded be op dst.shape _).refused

omit [Scalar α] in
/-- An update of a target fails as what it refuses. -/
theorem Gated.update {β γ : Type} {u : Shape → Update (Elements α) β} {check : Outcome γ}
    {gates : List Gate} {t : Target α} (h : Gated gates check)
    (hu : Refuses (u t.shape) check t.segment.elems) :
    Gated gates ((Target.update u).exec t).1 := by
  intro fault hgates
  have hrefused := hu fault (h fault hgates)
  unfold Update.exec Target.update Segment.update
  rw [hrefused]

section

variable {alpha x : View α} {xOffset yOffset limit : Nat} {rows : RowSpan} {y : Target α}

theorem saxpyRowsCheck_gated (hx : x.WellFormed) :
    Gated (Windowed.saxpyRows alpha x xOffset yOffset limit rows y).gates
      (Backend.saxpyRowsCheck alpha x xOffset yOffset limit rows y.shape) := by
  refine .window (.window ?_)
  by_cases hrows : 0 < rows.rows
  · simp only [if_pos hrows]
    refine .other (.congr fun _ _ => .congr fun _ _ => .congr fun _ _ => failsAs_ok) fun h => ?_
    obtain ⟨alphas, hc, h⟩ := bind_eq_ok.mp h
    obtain ⟨row, hrow, h⟩ := bind_eq_ok.mp h
    obtain ⟨v, hweight, -⟩ := bind_eq_ok.mp h
    obtain ⟨hdims, -⟩ := (View.sliceAt_ensures hx [rows.xRow]).of_ok hrow
    have hsize : row.size = x.rowSize := congrArg Shape.volume hdims
    rw [hc, ok_bind, Backend.saxpyRowCheck, Nat.add_zero, Nat.add_zero, hrow, ok_bind, hweight,
      ok_bind, ← hsize]
    exact Gated.bind (.window (.window .nil)) _
  · simp only [if_neg hrows]
    exact .nil

/-- The first row is checked before anything is written. -/
theorem saxpyRows_refuses (be : Backend α) (e : Elements α) :
    Refuses (be.saxpyRows alpha x xOffset yOffset limit rows y.shape)
      (Backend.saxpyRowsCheck alpha x xOffset yOffset limit rows y.shape) e := by
  have hcheck : Backend.saxpyRowsCheck alpha x xOffset yOffset limit rows y.shape = (do
      let alphas ← (do
        checkWindow "saxpy_rows" alpha.size rows.alphaOffset rows.rows
        checkWindow "saxpy_rows" x.shape.first rows.xRow rows.rows
        alpha.contiguous)
      if 0 < rows.rows then
        Backend.saxpyRowCheck alphas x xOffset yOffset limit rows y.shape 0
      else return ()) := by
    simp only [Backend.saxpyRowsCheck, bind_assoc]
  rw [hcheck]
  exact .after fun alphas => .forM_range (be.saxpyRow_guarded 0 e).refused

end

theorem narrow_gated (v : View α) (start count : Nat) :
    Gated (Windowed.narrow v start count).gates (v.narrow start count) := by
  refine .other (.congr fun _ _ => failsAs_ok) fun h => ?_
  obtain ⟨e, hc, -⟩ := bind_eq_ok.mp h
  rw [Gated, passAll_singleton, Gate.pass_index, View.narrow, hc, ok_bind]
  refine FailsAs.congr fun stop _ => ?_
  by_cases hstop : stop ≤ v.shape.first
  · rw [if_pos hstop]
    exact failsAs_ok
  · rw [if_neg hstop, if_pos (Or.inr (Nat.lt_of_not_le hstop))]
    exact (failsAs_fail _).bind _

omit [Scalar α] in
theorem copyWindows_gated (size : Nat) (src : View α) (source start len : Nat) :
    Gated [.index size start len, .index src.size source len]
      (Target.copyWindows size src source start len) := by
  rw [Target.copyWindows, ← Gate.pass_index, ← Gate.pass_index]
  exact .cons (.cons .nil)

theorem copyFrom_gated (src : View α) (source start len : Nat) (dst : Tensor α) :
    Gated (Windowed.copyFrom src source start len dst).gates
      ((Tensor.copyFrom src source start len).exec dst).1 := by
  refine .other (fun fault hfails => ?_) fun h fault hgates => ?_
  · cases htarget : dst.target with
    | error fault' =>
      rw [htarget] at hfails
      obtain rfl := Except.error.inj hfails
      rw [Update.exec, Tensor.copyFrom, htarget]
    | ok part =>
      rw [htarget] at hfails
      cases hfails
  · obtain ⟨part, hpart, -⟩ := bind_eq_ok.mp h
    obtain ⟨shape, e, rfl, hb, hle⟩ := Tensor.target_eq_ok hpart
    have hwindows : Target.copyWindows shape.size src source start len = .error fault :=
      copyWindows_gated _ src source start len fault hgates
    rw [Tensor.exec_copyFrom hb hle, hwindows]

namespace Windowed

/-- An operation fails as its gates do. -/
theorem gated (be : Backend α) {op : Windowed α} (hop : op.WellFormed) :
    Gated op.gates (op.outcome be) := by
  cases op with
  | dotProduct a b aOffset bOffset len => exact (dotProduct_gated be a b aOffset bOffset len).bind _
  | compute op dst =>
    exact (Compute.check_gated be dst.shape dst.dtype op).update (Compute.run_refuses be op dst)
  | saxpyRows alpha x xOffset yOffset limit rows y =>
    exact (saxpyRowsCheck_gated hop.2).update (saxpyRows_refuses be _)
  | quantize t d offset len => exact (quantize_gated be t d offset len).bind _
  | narrow v start count => exact (narrow_gated v start count).bind _
  | copyFrom src source start len dst => exact copyFrom_gated src source start len dst

end Windowed

/-! ## What they check besides -/

section

omit [Scalar α]

theorem checkSource_reports (dst : Shape) (src : View α) :
    Reports (Elementwise.checkSource dst src) :=
  (src.contiguous_ensures.bind (R := fun _ => True) fun _ _ _ => by
    split <;> trivial).reports

theorem checkOperands_reports (result : Shape) (a b : View α) :
    Reports (checkOperands result a b) := by
  have hmatrix (operand : String) (s : Shape) : Ensures (checkMatrix operand s) fun _ => True := by
    unfold checkMatrix
    split <;> trivial
  refine (Ensures.bind (R := fun _ => True) (hmatrix _ _) fun _ _ _ =>
    (hmatrix _ _).bind fun _ _ _ => (hmatrix _ _).bind fun _ _ _ => ?_).reports
  dsimp only
  split
  · trivial
  · exact a.contiguous_ensures.bind fun _ _ _ => b.contiguous_ensures.bind fun _ _ _ => trivial

end

theorem checkFirstRow_reports {alpha x : View α} {rows : RowSpan} (ha : alpha.WellFormed)
    (hx : x.WellFormed) (h : rows.alphaOffset < alpha.size) :
    Reports (checkFirstRow alpha x rows) := by
  refine (Ensures.bind (R := fun _ => True) alpha.contiguous_ensures ?_).reports
  rintro alphas - ⟨hc, rfl⟩
  refine (View.sliceAt_ensures hx [rows.xRow]).bind fun _ _ _ => ?_
  obtain ⟨v, hv⟩ := Elements.exists_get ha.elems.scaled (Nat.lt_of_lt_of_le h (ha.size_le hc))
  rw [hv]
  trivial

theorem target_reports {t : Tensor α} (h : t.WellFormed) : Reports t.target := by
  obtain ⟨shape, storage⟩ := t
  cases storage with
  | shared | mapped => trivial
  | owned e =>
    have hle : shape.size ≤ e.size := h.filled.size_le
    rw [show Tensor.target ⟨shape, .owned e⟩ = _ from
      Tensor.target_owning (Nat.lt_of_le_of_lt hle h.elems.fits) hle]
    trivial

namespace Windowed

theorem reported {op : Windowed α} (hop : op.WellFormed) : Reported op.gates := by
  cases op with
  | dotProduct => exact .window (.window trivial)
  | quantize => exact .window trivial
  | compute op dst =>
    cases op with
    | batchDotProduct a b w =>
      exact .other (checkOperands_reports _ a b) fun _ =>
        .window (.window (.window (.window trivial)))
    | elementwise op =>
      cases op with
      | accumulate src | maccumulate src =>
        exact .other (checkSource_reports _ src) fun _ => .window trivial
      | scale => exact .window trivial
      | saxpy | sxpby => exact .window (.window trivial)
  | saxpyRows alpha x xOffset yOffset limit rows y =>
    -- the weight of the first row is there since the window of the weights has been passed
    refine ⟨nofun, fun hweights => .window ?_⟩
    have hle : rows.alphaOffset + rows.rows ≤ alpha.size := checkWindow_eq_ok hweights
    by_cases hrows : 0 < rows.rows
    · simp only [if_pos hrows]
      exact .other (checkFirstRow_reports hop.1 hop.2 (by omega)) fun _ => .window (.window trivial)
    · simp only [if_neg hrows]
      trivial
  | narrow v start count =>
    exact .other v.contiguous_ensures.reports.discard fun _ => .window trivial
  | copyFrom src source start len dst =>
    exact .other (target_reports hop).discard fun _ => .window (.window trivial)

/-- For all operations, offsets and lengths: where some window goes beyond the size that it must
stay within, the operation overflows if it comes to a window that ends beyond the words, and
reports an error if it does not, as when the ends of all windows are words. -/
theorem outcome_of_exceeds (be : Backend α) (op : Windowed α) (hop : op.WellFormed)
    (h : ∃ w ∈ op.windows, w.Exceeds) :
    (Overflows op.gates → op.outcome be = .stop .overflow) ∧
      (¬Overflows op.gates → ∃ err, op.outcome be = .fail err) ∧
      ((∀ w ∈ op.windows, w.stop < Word.bound) → ¬Overflows op.gates) := by
  refine ⟨fun hover => gated be hop _ (passAll_of_overflows hover), fun hno => ?_, not_overflows⟩
  obtain ⟨err, herr⟩ := passAll_of_exceeds (reported hop) h hno
  exact ⟨err, gated be hop _ herr⟩

/-- A view of five elements. -/
def shortView : View Binary32 := ⟨⟨[5], by decide, by decide⟩, [1], .f32 (.replicate 5 ⟨0⟩)⟩

/-- A product with the element after the last is refused. -/
theorem outcome_of_exceeds_byOne :
    let op := dotProduct shortView shortView 0 1 5
    op.WellFormed ∧ (∃ w ∈ op.windows, w.Exceeds) ∧ (∀ w ∈ op.windows, w.stop < Word.bound) ∧
      ∃ err, op.outcome .reference = .fail err := by
  intro op
  have hexceeds : ∃ w ∈ op.windows, w.Exceeds := by decide
  have hwords : ∀ w ∈ op.windows, w.stop < Word.bound := by decide
  obtain ⟨-, hreported, hno⟩ := outcome_of_exceeds .reference op trivial hexceeds
  exact ⟨trivial, hexceeds, hwords, hreported (hno hwords)⟩

/-- A window that starts at the last word is not found to go beyond five elements, be it of a
compute operation, of rows or of a copy. -/
theorem outcome_overflows :
    let start := 2 ^ 64 - 1
    ∀ op ∈ [dotProduct shortView shortView start 0 1, narrow shortView start 1,
        copyFrom shortView start 0 1 (.owning shortView.shape shortView.elems)],
      op.WellFormed ∧ (∃ w ∈ op.windows, w.Exceeds) ∧ op.outcome .reference = .stop .overflow := by
  intro start
  simp only [List.forall_mem_cons, List.not_mem_nil, false_implies, implies_true, and_true]
  exact ⟨⟨trivial, by decide, rfl⟩, ⟨trivial, by decide, rfl⟩,
    ⟨⟨trivial, by decide⟩, rfl⟩, by decide, rfl⟩

end Windowed

end BlockTensor
