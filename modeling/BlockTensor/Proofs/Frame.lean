import BlockTensor.Proofs.Layout
import BlockTensor.Proofs.Segment
import BlockTensor.Proofs.View
import BlockTensor.Float.Binary32

/-!
# What writing to a part leaves alone

A part of a tensor is reached along its leading dimensions and written through
`Target.Mutation`s. No mutation moves or resizes it (`runAll_outline`), and each
step of the path leads to the segment of its own elements (`follow_divides`), so
what is put back is what `Segment.put_cell` speaks of:

* `put_frame`: an element outside the part keeps its value, if the part ends on
  a block or with the tensor. These are exactly the safe parts: where it ends
  inside a block that goes on, zeroing it also zeroes the element that follows.
* `zeroing_escapes`: such parts are handed out. A part need not end on a block
  if its last block is also that of the whole it is taken from, but this whole
  may go on in that block.
-/

namespace BlockTensor.Target

open Outcome Shape

variable {α : Type}

/-! ## Parts -/

/-- The index that a step gives the leading dimension. -/
def Step.index : Step → Nat
  | slice i => i
  | row i => i

/-- The element at which the part at the end of a path starts. -/
def startAt : (dims : List Nat) → List Step → Nat
  | _ :: dims, s :: path => s.index * volume dims + startAt dims path
  | _, _ => 0

theorem of_eq_ok {shape : Shape} {s : Segment α} {t : Target α} (h : of shape s = .ok t) :
    t = ⟨shape, s⟩ := by
  obtain ⟨_, -, h⟩ := bind_eq_ok.mp h
  exact (Except.ok.inj h).symm

section

variable {P : Segment α → Nat → Prop} (hP : Segment.Divides P)

include hP

/-- The rows of a segment for all of them are segments for one each. -/
theorem rowsFrom_divides {count : Nat} {sub : Shape} {rest : Segment α} {rows : List (Target α)}
    (hs : P rest (count * sub.size)) (h : rowsFrom sub count rest = .ok rows) {i : Nat}
    {r : Target α} (hr : rows[i]? = some r) :
    r.shape = sub ∧ r.segment.start = rest.start + i * sub.size ∧ P r.segment sub.size := by
  induction count generalizing rest rows i with
  | zero =>
    obtain rfl : [] = rows := Except.ok.inj h
    nomatch hr
  | succ count ih =>
    cases count with
    | zero =>
      -- the last row takes what is left
      obtain ⟨t, ht, h⟩ := bind_eq_ok.mp h
      obtain rfl : [t] = rows := Except.ok.inj h
      obtain rfl := of_eq_ok ht
      cases i with
      | zero =>
        obtain rfl := Option.some.inj hr
        rw [Nat.zero_add, Nat.one_mul] at hs
        exact ⟨rfl, by simp, hs⟩
      | succ i => nomatch hr
    | succ count =>
      obtain ⟨⟨row, rest'⟩, hsplit, h⟩ := bind_eq_ok.mp h
      obtain ⟨t, ht, h⟩ := bind_eq_ok.mp h
      obtain ⟨rows', hrows, h⟩ := bind_eq_ok.mp h
      obtain rfl : t :: rows' = rows := Except.ok.inj h
      obtain rfl := of_eq_ok ht
      have hmul : (count + 1 + 1) * sub.size = (count + 1) * sub.size + sub.size := Nat.succ_mul ..
      obtain ⟨hrow, hfirst, hrest, hothers⟩ := hP.splitAt hs (by omega) hsplit
      rw [hmul, Nat.add_sub_cancel] at hothers
      cases i with
      | zero =>
        obtain rfl := Option.some.inj hr
        exact ⟨rfl, by simp [hrow], hfirst⟩
      | succ i =>
        obtain ⟨hshape, hstart, hthis⟩ := ih hothers hrows hr
        refine ⟨hshape, ?_, hthis⟩
        rw [hstart, hrest, Nat.succ_mul]
        omega

/-- A step leads to the segment of its own elements. -/
theorem follow_divides {t part : Target α} {s : Step} (ht : P t.segment t.size)
    (h : t.follow s = .ok part) :
    part.shape.dims = t.shape.dims.drop 1 ∧
      part.segment.start = t.segment.start + s.index * volume (t.shape.dims.drop 1) ∧
      P part.segment part.size := by
  cases s with
  | slice i =>
    rw [follow, slice] at h
    dsimp only at h
    split at h
    · exact absurd h (fail_ne_ok _ _)
    rename_i hi
    obtain ⟨sub, hsub, h⟩ := bind_eq_ok.mp h
    obtain ⟨segment, hn, h⟩ := bind_eq_ok.mp h
    obtain rfl := of_eq_ok h
    have hle : i * sub.size + sub.size ≤ t.size := by
      rw [← Nat.succ_mul, Target.size, ← first_mul_size hsub]
      exact Nat.mul_le_mul_right _ (Nat.not_le.mp hi)
    obtain ⟨hstart, hpart⟩ := hP.narrow ht hle hn
    rw [← drop_dims hsub]
    exact ⟨rfl, hstart, hpart⟩
  | row i =>
    obtain ⟨rows, hrows, hr⟩ := bind_eq_ok.mp h
    obtain ⟨sub, hsub, hrows⟩ := bind_eq_ok.mp hrows
    rw [Target.size, ← first_mul_size hsub] at ht
    have hr := Buffer.read_eq_ok.mp hr
    rw [List.getElem?_toArray] at hr
    obtain ⟨rfl, hstart, hpart⟩ := rowsFrom_divides hP ht hrows hr
    rw [← drop_dims hsub]
    exact ⟨rfl, hstart, hpart⟩

/-- So does a path. -/
theorem followAll_divides {t part : Target α} {path : List Step} (ht : P t.segment t.size)
    (h : t.followAll path = .ok part) :
    part.shape.dims = t.shape.dims.drop path.length ∧
      part.segment.start = t.segment.start + startAt t.shape.dims path ∧
      P part.segment part.size := by
  induction path generalizing t with
  | nil =>
    obtain rfl : t = part := Except.ok.inj h
    refine ⟨rfl, ?_, ht⟩
    cases t.shape.dims <;> rfl
  | cons s path ih =>
    rw [followAll, List.foldlM_cons] at h
    obtain ⟨u, hu, h⟩ := bind_eq_ok.mp h
    obtain ⟨hdims, hstart, hnext⟩ := follow_divides hP ht hu
    obtain ⟨hdims', hstart', hpart⟩ := ih hnext h
    obtain ⟨d, dims, hd⟩ := List.exists_cons_of_ne_nil t.shape.nonempty
    rw [hd] at hdims hstart ⊢
    refine ⟨by rw [hdims', hdims, List.drop_drop, Nat.add_comm]; rfl, ?_, hpart⟩
    rw [hstart', hstart, hdims, startAt]
    exact Nat.add_assoc ..

/-- So does a path into owned elements. -/
theorem part_divides {t : Tensor α} {path : List Step} {part : Target α}
    (ht : ∀ e, t.storage = .owned e → P e.whole t.shape.size)
    (h : (do (← t.target).followAll path) = .ok part) :
    ∃ e, t.storage = .owned e ∧ part.shape.dims = t.shape.dims.drop path.length ∧
      part.segment.start = startAt t.shape.dims path ∧ P part.segment part.size := by
  obtain ⟨whole, hw, h⟩ := bind_eq_ok.mp h
  obtain ⟨e, he, hw⟩ := bind_eq_ok.mp hw
  obtain ⟨shape, storage⟩ := t
  cases storage with
  | shared e => exact absurd he (fail_ne_ok _ _)
  | mapped m => exact absurd he (fail_ne_ok _ _)
  | owned e' =>
    obtain rfl : e' = e := Except.ok.inj he
    obtain rfl := of_eq_ok hw
    obtain ⟨hdims, hstart, hpart⟩ := followAll_divides hP (ht _ rfl) h
    exact ⟨_, rfl, hdims, hstart.trans (Nat.zero_add _), hpart⟩

end

/-! ## Mutations -/

/-- A way to write to a target. -/
inductive Mutation (α : Type)
  /-- Store a value at an index vector. -/
  | set (v : α) (index : List Nat)
  /-- Zero all that the segment holds. -/
  | fillZero
  /-- Copy encoded elements of a view. -/
  | copyFrom (src : View α) (source start len : Nat)
  /-- Multiply a window of each row by a factor. -/
  | scale (be : Backend α) (factor : α) (offset len : Nat)
  /-- Add a view to a window of each row. -/
  | accumulate (be : Backend α) (src : View α) (offset len : Nat)

/-- What a target is apart from the values that it holds. -/
def outline (t : Target α) : Shape × Nat × DType × Nat × Nat :=
  (t.shape, t.segment.start, t.elems.layout)

theorem outline_eq {shape : Shape} {s s' : Segment α} (h : s'.start = s.start)
    (hl : s'.elems.layout = s.elems.layout) :
    (⟨shape, s'⟩ : Target α).outline = (⟨shape, s⟩ : Target α).outline := by
  simp only [outline, elems, h, hl]

theorem owns_of_outline {owner : Elements α} {total count : Nat} {t t' : Target α}
    (h : t'.outline = t.outline) (ht : t.segment.Owns owner total count) :
    t'.segment.start = t.segment.start ∧ t'.segment.Owns owner total count := by
  obtain ⟨-, h⟩ := Prod.mk.inj h
  obtain ⟨hstart, hlayout⟩ := Prod.mk.inj h
  exact ⟨hstart, ht.of_layout hstart hlayout⟩

/-- An update of the elements moves neither the target nor its shape. -/
theorem left_update {β : Type} (u : Shape → Update (Elements α) β) (t : Target α) :
    Update.left (update u t) =
      ⟨t.shape, t.segment.start, Update.left (u t.shape t.segment.elems)⟩ := by
  unfold update Segment.update
  cases u t.shape t.segment.elems <;> rfl

theorem update_keeps {β : Type} {u : Shape → Update (Elements α) β}
    (h : ∀ shape, (u shape).Keeps Elements.layout) : (update u).Keeps outline := by
  intro t
  rw [left_update]
  exact outline_eq rfl (h t.shape t.segment.elems)

variable [Scalar α]

/-- To store a value is to update the elements at its position, which is one of the
elements of the shape. -/
theorem set_eq_update (v : α) (index : List Nat) (t : Target α) :
    (∃ f, set v index t = .error f t) ∨
      ∃ p, t.shape.offsetOf index = .ok p ∧
        set v index t = update (fun _ => Elements.set p v) t := by
  unfold set update
  cases hp : t.shape.offsetOf index with
  | error f => exact .inl ⟨f, rfl⟩
  | ok p =>
    refine .inr ⟨p, rfl, ?_⟩
    dsimp only
    cases Segment.update (Elements.set p v) t.segment <;> rfl

theorem checkCopyWindow_eq_ok {size offset len : Nat} {u : Unit}
    (h : checkCopyWindow size offset len = .ok u) : offset + len ≤ size := by
  obtain ⟨stop, hstop, h⟩ := bind_eq_ok.mp h
  obtain ⟨-, rfl⟩ := Word.check_eq_ok.mp hstop
  split at h
  · assumption
  · exact absurd h (fail_ne_ok _ _)

theorem checkCopyWindow_of_le {size offset len : Nat} (h : offset + len ≤ size)
    (hb : size < Word.bound) : checkCopyWindow size offset len = .ok () := by
  rw [checkCopyWindow, Word.add_of_lt (by omega), ok_bind, if_pos h]
  rfl

/-- What is checked of the windows of a copy. -/
def copyWindows (size : Nat) (src : View α) (source start len : Nat) : Outcome (Elements α) := do
  checkCopyWindow size start len
  checkCopyWindow src.size source len
  src.contiguous

omit [Scalar α] in
theorem copyWindows_eq_ok {size : Nat} {src : View α} {source start len : Nat} {e : Elements α}
    (h : copyWindows size src source start len = .ok e) :
    start + len ≤ size ∧ source + len ≤ src.size ∧ src.isContiguous = true ∧ e = src.elems := by
  obtain ⟨_, hstart, h⟩ := bind_eq_ok.mp h
  obtain ⟨_, hsource, h⟩ := bind_eq_ok.mp h
  exact ⟨checkCopyWindow_eq_ok hstart, checkCopyWindow_eq_ok hsource,
    src.contiguous_ensures.of_ok h⟩

/-- How many elements a copy of `len` moves: whole blocks where both windows end with
their tensors. -/
def copySpan (d : DType) (size srcSize source start len : Nat) : Nat :=
  if d.isQuantized ∧ start + len = size ∧ source + len = srcSize then blocksOf len * blockSize
  else len

theorem copySpan_of_ends {d : DType} (hq : d.isQuantized) {size srcSize source start len : Nat}
    (h : start + len = size ∧ source + len = srcSize) :
    copySpan d size srcSize source start len = blocksOf len * blockSize := if_pos ⟨hq, h⟩

theorem copySpan_of_not_ends (d : DType) {size srcSize source start len : Nat}
    (h : ¬(start + len = size ∧ source + len = srcSize)) :
    copySpan d size srcSize source start len = len := if_neg fun hends => h hends.2

/-- To copy is to update the elements with encoded ones: as many as asked for, or whole
blocks where both windows end. -/
theorem copyFrom_cases (src : View α) (source start len : Nat) (t : Target α) :
    (∃ f, copyWindows t.size src source start len = .error f ∧
        copyFrom src source start len t = .error f t) ∨
      copyWindows t.size src source start len = .ok src.elems ∧
        copyFrom src source start len t = update (fun _ => Elements.copyRaw start src.elems source
          (copySpan t.dtype t.size src.size source start len)) t := by
  unfold copyFrom update copySpan
  dsimp only
  split
  · exact .inl ⟨_, ‹_›, rfl⟩
  rename_i elems helems
  obtain ⟨-, -, -, rfl⟩ := copyWindows_eq_ok helems
  refine .inr ⟨helems, ?_⟩
  cases Segment.update _ t.segment <;> rfl

theorem copyFrom_eq_update (src : View α) (source start len : Nat) (t : Target α) :
    (∃ f, copyFrom src source start len t = .error f t) ∨
      start + len ≤ t.size ∧
        ∃ n, (n = len ∨ n = blocksOf len * blockSize ∧ source + len = src.size) ∧
          copyFrom src source start len t =
            update (fun _ => Elements.copyRaw start src.elems source n) t := by
  obtain ⟨f, -, hf⟩ | ⟨hwindows, hcopy⟩ := copyFrom_cases src source start len t
  · exact .inl ⟨f, hf⟩
  obtain ⟨hstart, -⟩ := copyWindows_eq_ok hwindows
  refine .inr ⟨hstart, _, ?_, hcopy⟩
  unfold copySpan
  split
  · rename_i hends
    exact .inr ⟨rfl, hends.2.2⟩
  · exact .inl rfl

namespace Mutation

/-- The update that a mutation is. -/
def run : Mutation α → Update (Target α) Unit
  | set v index => Target.set v index
  | fillZero => Target.update fun _ => modify Elements.fillZero
  | copyFrom src source start len => Target.copyFrom src source start len
  | scale be factor offset len => Target.update (be.scale factor offset len)
  | accumulate be src offset len => Target.update (be.accumulate src offset len)

theorem set_keeps (v : α) (index : List Nat) : (Target.set v index).Keeps outline := by
  intro t
  obtain ⟨f, h⟩ | ⟨p, -, h⟩ := set_eq_update v index t
  · rw [h]
    rfl
  · rw [h]
    exact update_keeps (fun _ => Elements.write_keeps p #[v]) t

theorem copyFrom_keeps (src : View α) (source start len : Nat) :
    (Target.copyFrom src source start len).Keeps outline := by
  intro t
  obtain ⟨f, h⟩ | ⟨-, n, -, h⟩ := copyFrom_eq_update src source start len t
  · rw [h]
    rfl
  · rw [h]
    exact update_keeps (fun _ => Elements.copyRaw_keeps start src.elems source n) t

theorem run_keeps (m : Mutation α) : m.run.Keeps outline := by
  cases m with
  | set v index => exact set_keeps v index
  | fillZero =>
    exact update_keeps (u := fun _ => modify Elements.fillZero) fun _ => Elements.fillZero_layout
  | copyFrom src source start len => exact copyFrom_keeps src source start len
  | scale be factor offset len => exact update_keeps fun x => be.scale_keeps factor offset len x
  | accumulate be src offset len =>
    exact update_keeps fun dst => be.accumulate_keeps src offset len dst

end Mutation

/-- What some mutations leave of a target, whether they succeed or fail. -/
def runAll (ms : List (Mutation α)) (t : Target α) : Target α :=
  ms.foldl (fun t m => (m.run.exec t).2) t

theorem runAll_outline (ms : List (Mutation α)) (t : Target α) :
    (runAll ms t).outline = t.outline := by
  induction ms generalizing t with
  | nil => rfl
  | cons m ms ih =>
    rw [runAll, List.foldl_cons]
    refine (ih _).trans ?_
    rw [Update.exec_snd]
    exact m.run_keeps t

/-! ## The frame -/

/-- A part of a tensor is a segment of its elements. -/
theorem part_owns {t : Tensor α} (ht : t.Filled) {path : List Step} {part : Target α}
    (h : (do (← t.target).followAll path) = .ok part) :
    (∃ e, t.storage = .owned e) ∧ part.shape.dims = t.shape.dims.drop path.length ∧
      part.segment.start = startAt t.shape.dims path ∧
      part.segment.Owns t.elements t.shape.size part.size := by
  have hwhole (e : Elements α) (he : t.storage = .owned e) :
      e.whole.Owns t.elements t.shape.size t.shape.size := by
    obtain ⟨shape, storage⟩ := t
    obtain rfl := he
    exact Segment.whole_owns ht
  obtain ⟨e, he, hpart⟩ := part_divides (Segment.owns_divides t.elements t.shape.size) hwhole h
  exact ⟨⟨e, he⟩, hpart⟩

/-- Writing to a part of a tensor, in any way and any number of times, keeps the
value of every element outside it, if the part ends on a block or with the
tensor. If it ends inside a block and before the tensor does, zeroing it makes
zero of the element that follows. -/
theorem put_frame (t : Tensor α) (ht : t.Filled) (path : List Step) (part : Target α)
    (h : (do (← t.target).followAll path) = .ok part) :
    let start := startAt t.shape.dims path
    let stop := start + volume (t.shape.dims.drop path.length)
    ((stop % t.dtype.blockSize = 0 ∨ stop = t.shape.size) →
      ∀ ms p, p < t.shape.size → (p < start ∨ stop ≤ p) →
        (t.put (runAll ms part)).elements.get p = t.elements.get p) ∧
    (¬(stop % t.dtype.blockSize = 0 ∨ stop = t.shape.size) →
      stop < t.shape.size ∧
        (t.put (runAll [.fillZero] part)).elements.get stop = .ok (Scalar.ofInt 0 * 0)) := by
  obtain ⟨⟨e, he⟩, hdims, hstart, howns⟩ := part_owns ht h
  rcases t with ⟨shape, _⟩
  obtain rfl := he
  rw [← hdims, ← hstart]
  have hsize : volume part.shape.dims = part.size := rfl
  rw [hsize]
  refine ⟨fun hend ms p hp hout => ?_, fun hend => ?_⟩
  · obtain ⟨hstart', howns'⟩ := owns_of_outline (runAll_outline ms part) howns
    rw [← hstart'] at hend hout
    exact Elements.get_congr (Segment.put_cell howns' hend hp hout)
  · obtain ⟨hmod, hne⟩ := not_or.mp hend
    have hlt := Nat.lt_of_le_of_ne howns.within hne
    exact ⟨hlt, Segment.put_fillZero ht howns hmod hlt⟩

/-- Two rows of ones, each a block. -/
def blockRows : Tensor Binary32 :=
  .owning ⟨[2, 32], by decide, by decide⟩
    (.q8 (.replicate 64 1) #[⟨0x3f800000⟩, ⟨0x3f800000⟩])

/-- The first of them. -/
def blockRow : Target Binary32 :=
  ⟨⟨[32], by decide, by decide⟩, ⟨0, .q8 (.replicate 32 1) #[⟨0x3f800000⟩]⟩⟩

theorem put_frame_blockRow :
    blockRows.Filled ∧ (do (← blockRows.target).followAll [.slice 0]) = .ok blockRow ∧
      (blockRows.put (runAll [.set 0 [3], .fillZero] blockRow)).elements.get 40 =
        .ok ⟨0x3f800000⟩ := by
  have hfilled : blockRows.Filled := rfl
  have hpart : (do (← blockRows.target).followAll [.slice 0]) = .ok blockRow := rfl
  obtain ⟨hframe, -⟩ := put_frame blockRows hfilled [.slice 0] blockRow hpart
  exact ⟨hfilled, hpart, hframe (.inl rfl) _ 40 (by decide) (.inr (by decide))⟩

/-- Two rows of ones in one block. -/
def halfRows : Tensor Binary32 :=
  .owning ⟨[2, 16], by decide, by decide⟩ (.q8 (.replicate 32 1) #[⟨0x3f800000⟩])

/-- The first of them, which holds the block. -/
def halfRow : Target Binary32 :=
  ⟨⟨[16], by decide, by decide⟩, ⟨0, .q8 (.replicate 32 1) #[⟨0x3f800000⟩]⟩⟩

/-- A row that ends inside the only block is handed out, and zeroing it reaches
the other row. -/
theorem zeroing_escapes :
    halfRows.Filled ∧ (do (← halfRows.target).followAll [.slice 0]) = .ok halfRow ∧
      halfRow.segment.start + halfRow.size ≤ 16 ∧ 16 < halfRows.shape.size ∧
      halfRows.elements.get 16 = .ok ⟨0x3f800000⟩ ∧
      (halfRows.put (runAll [.fillZero] halfRow)).elements.get 16 = .ok ⟨0⟩ := by
  have hfilled : halfRows.Filled := rfl
  have hpart : (do (← halfRows.target).followAll [.slice 0]) = .ok halfRow := rfl
  obtain ⟨-, -, -, howns⟩ := part_owns hfilled hpart
  refine ⟨hfilled, hpart, by decide, by decide, rfl, ?_⟩
  have hput : (halfRows.put (runAll [.fillZero] halfRow)).elements =
      halfRows.elements.put ⟨halfRow.segment.start, halfRow.segment.elems.fillZero⟩ := rfl
  have hstop : halfRow.segment.start + halfRow.size = 16 := rfl
  have hzero : (Scalar.ofInt 0 * 0 : Binary32) = ⟨0⟩ := rfl
  rw [hput, ← hzero, ← hstop]
  exact Segment.put_fillZero hfilled howns (by decide) (by decide)

end BlockTensor.Target
