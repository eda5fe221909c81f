import BlockTensor.Proofs.Frame
import BlockTensor.Proofs.PartWrite

/-!
# Writes to parts of an owner

A segment of an owner is cut into parts by narrowing it and by splitting it, again and
again (`Segment.cutAll`). However it is cut, the part is a range of the owner that
starts where the offsets of the cuts add up to (`cutAll_isRange`).

* `Segment.ActsOn`: to write to a part at some element is to write to the owner at this
  element of the range.
* `Segment.Independent`: writes to two parts reach the owner in either order.
* `write_acts_on_owner`: every part acts on its owner so; the rows into which a part is
  split are as many as its leading dimension says, start one row after the other, and
  are independent of each other.
-/

namespace BlockTensor

open Outcome Update Elements Shape

namespace Segment

variable {α : Type}

/-! ## Parts of parts -/

/-- A way from a segment to a part of it. -/
inductive Cut
  /-- The elements of a range. -/
  | narrow (start len : Nat)
  /-- The elements before one of them. -/
  | before (mid : Nat)
  /-- The elements from one of them on. -/
  | after (mid : Nat)
  deriving DecidableEq

/-- The element at which the part starts. -/
def Cut.offset : Cut → Nat
  | narrow start _ => start
  | before _ => 0
  | after mid => mid

/-- The part that a cut leaves. -/
def cut (s : Segment α) : Cut → Outcome (Segment α)
  | .narrow start len => s.narrow start len
  | .before mid => do return (← s.splitAt mid).1
  | .after mid => do return (← s.splitAt mid).2

/-- The part that some cuts leave, one after the other. -/
def cutAll (s : Segment α) (cuts : List Cut) : Outcome (Segment α) := cuts.foldlM cut s

theorem cutAll_concat {s u : Segment α} {cuts : List Cut} (h : s.cutAll cuts = .ok u) (c : Cut) :
    s.cutAll (cuts ++ [c]) = u.cut c := by
  rw [cutAll, List.foldlM_append, ← cutAll, h, ok_bind, List.foldlM_cons]
  exact bind_pure _

/-- A cut leads from a range of the owner to a range of it. -/
theorem cut_isRange {e : Elements α} {s s' : Segment α} {n : Nat}
    (hs : e.IsRange s.start n s.elems) {c : Cut} (h : s.cut c = .ok s') :
    s'.start = s.start + c.offset ∧ ∃ m, e.IsRange s'.start m s'.elems := by
  cases c with
  | narrow start len =>
    obtain ⟨ha, hle, rfl⟩ := eq_extract_of_narrow h
    exact ⟨rfl, len, hs.trans (extract_isRange hs.scaled ha hle)⟩
  | before mid =>
    obtain ⟨⟨a, b⟩, hsplit, h⟩ := bind_eq_ok.mp h
    obtain ⟨-, hle, rfl, -⟩ := eq_extract_of_splitAt hs.scaled hsplit
    obtain rfl := Except.ok.inj h
    exact ⟨rfl, mid, hs.trans (extract_isRange hs.scaled (Nat.zero_mod _) (by omega))⟩
  | after mid =>
    obtain ⟨⟨a, b⟩, hsplit, h⟩ := bind_eq_ok.mp h
    obtain ⟨ha, hle, -, rfl⟩ := eq_extract_of_splitAt hs.scaled hsplit
    obtain rfl := Except.ok.inj h
    exact ⟨rfl, _, hs.trans (extract_isRange hs.scaled ha (by omega))⟩

/-- So do any cuts: the offsets add up. -/
theorem cutAll_isRange {e : Elements α} {s s' : Segment α} {n : Nat}
    (hs : e.IsRange s.start n s.elems) {cuts : List Cut} (h : s.cutAll cuts = .ok s') :
    s'.start = s.start + (cuts.map Cut.offset).sum ∧ ∃ m, e.IsRange s'.start m s'.elems := by
  induction cuts generalizing s n with
  | nil =>
    obtain rfl := Except.ok.inj h
    exact ⟨rfl, n, hs⟩
  | cons c cuts ih =>
    rw [cutAll, List.foldlM_cons] at h
    obtain ⟨u, hu, h⟩ := bind_eq_ok.mp h
    obtain ⟨hstart, m, hrange⟩ := cut_isRange hs hu
    obtain ⟨hstart', hrange'⟩ := ih hrange h
    refine ⟨?_, hrange'⟩
    rw [hstart', hstart, List.map_cons, List.sum_cons, Nat.add_assoc]

/-- Elements are whole blocks, and a range of themselves. -/
theorem whole_isRange {e : Elements α} (he : e.Scaled) :
    e.IsRange e.whole.start e.size e.whole.elems := by
  refine isRange_self he (DType.blocksFor_mul_of_mod ?_).symm
  cases hq : e.dtype.isQuantized with
  | false => rw [DType.blockSize, hq, if_neg Bool.false_ne_true, Nat.mod_one]
  | true => rw [DType.blockSize, if_pos hq, size_eq_scaleCount he hq, Nat.mul_mod_left]

/-- Being a part that more cuts lead to is a property that divides. -/
theorem reached_divides {e : Elements α} (he : e.Scaled) (cuts : List Cut) :
    Divides fun s _ => ∃ more, e.whole.cutAll (cuts ++ more) = .ok s where
  narrow := by
    rintro s s' count start len ⟨more, hs⟩ - h
    obtain ⟨-, -, rfl⟩ := eq_extract_of_narrow h
    refine ⟨rfl, more ++ [.narrow start len], ?_⟩
    rw [← List.append_assoc, cutAll_concat hs, cut, h]
  splitAt := by
    rintro s a b count mid ⟨more, hs⟩ - h
    obtain ⟨-, n, hrange⟩ := cutAll_isRange (whole_isRange he) hs
    obtain ⟨-, -, rfl, rfl⟩ := eq_extract_of_splitAt hrange.scaled h
    refine ⟨rfl, ⟨more ++ [.before mid], ?_⟩, rfl, more ++ [.after mid], ?_⟩ <;>
      rw [← List.append_assoc, cutAll_concat hs, cut, h] <;> rfl

/-! ## What is written to a part -/

variable [Scalar α]

/-- To write to a segment is to write to its owner, `start` elements further on. -/
structure ActsOn (e : Elements α) (start : Nat) (s : Segment α) : Prop where
  start_eq : s.start = start
  unchanged : e.put s = e
  write : ∀ k values, k + values.size ≤ s.elems.size →
    ∃ s', update (Elements.write k values) s = .ok () s' ∧
      Elements.write (start + k) values e = .ok () (e.put s')
  refuse : ∀ k values, s.elems.size < k + values.size →
    ∃ a, update (Elements.write k values) s = .error (.abort a) s

/-- Writes to two segments of an owner change it in the same way in either order. -/
def Independent (e : Elements α) (s t : Segment α) : Prop :=
  ∀ k values l others, k + values.size ≤ s.elems.size → l + others.size ≤ t.elems.size →
    ∃ s' t', update (Elements.write k values) s = .ok () s' ∧
      update (Elements.write l others) t = .ok () t' ∧
      (e.put s').put t' = (e.put t').put s' ∧
      (do Elements.write (s.start + k) values; Elements.write (t.start + l) others) e =
        .ok () ((e.put s').put t') ∧
      (do Elements.write (t.start + l) others; Elements.write (s.start + k) values) e =
        .ok () ((e.put s').put t')

variable {e : Elements α}

omit [Scalar α] in
theorem update_of_ok {β : Type} {u : Update (Elements α) β} {s : Segment α} {v : β}
    {x : Elements α} (h : u s.elems = .ok v x) : update u s = .ok v ⟨s.start, x⟩ := by
  unfold update
  rw [h]

/-- A range of an owner acts on it. -/
theorem actsOn_of_isRange (he : e.WellFormed) {s : Segment α} {n : Nat}
    (hs : e.IsRange s.start n s.elems) : s.ActsOn e s.start where
  start_eq := rfl
  unchanged := hs.put_self he.scaled
  write k values hk := by
    obtain ⟨x', hwrite, -, howner⟩ := hs.write_put he hk
    exact ⟨_, update_of_ok hwrite, howner⟩
  refuse k values hk := by
    obtain ⟨a, ha⟩ := write_eq_abort hk
    refine ⟨a, ?_⟩
    unfold update
    rw [ha]

/-- Ranges that come one after the other are independent. -/
theorem independent_of_apart (he : e.WellFormed) {s t : Segment α} {n m : Nat}
    (hs : e.IsRange s.start n s.elems) (ht : e.IsRange t.start m t.elems)
    (hapart : s.start + s.elems.size ≤ t.start) : s.Independent e t := by
  intro k values l others hk hl
  obtain ⟨x', hx, hxl, hex⟩ := hs.write_put he hk
  obtain ⟨y', hy, hyl, hey⟩ := ht.write_put he hl
  have hcomm := hs.put_comm ht he.scaled hxl hyl hapart
  -- each of them is still a range of the owner once the other has been written
  have hs' := ht.put_apart hs he.scaled hyl (.inl hapart)
  have ht' := hs.put_apart ht he.scaled hxl (.inr hapart)
  obtain ⟨y'', hy', -, hey'⟩ := ht'.write_put (he.of_layout (put_layout ..)) hl
  obtain ⟨x'', hx', -, hex'⟩ := hs'.write_put (he.of_layout (put_layout ..)) hk
  obtain rfl : y' = y'' := by
    rw [hy] at hy'
    injection hy'
  obtain rfl : x' = x'' := by
    rw [hx] at hx'
    injection hx'
  exact ⟨_, _, update_of_ok hx, update_of_ok hy, hcomm, (bind_ok hex).trans hey',
    (bind_ok hey).trans (hex'.trans (by rw [hcomm]))⟩

end Segment

/-! ## Rows -/

namespace Target

variable {α : Type}

/-- Each row ends before the next one starts. -/
theorem rowsFrom_apart {count : Nat} {sub : Shape} {rest : Segment α} {rows : List (Target α)}
    (hs : rest.elems.Scaled) (h : rowsFrom sub count rest = .ok rows) :
    rows.length = count ∧ (∀ r ∈ rows, rest.start ≤ r.segment.start) ∧
      rows.Pairwise fun r r' => r.segment.start + r.segment.elems.size ≤ r'.segment.start := by
  induction count generalizing rest rows with
  | zero =>
    obtain rfl : [] = rows := Except.ok.inj h
    exact ⟨rfl, nofun, .nil⟩
  | succ count ih =>
    cases count with
    | zero =>
      -- the last row takes what is left
      obtain ⟨t, ht, h⟩ := bind_eq_ok.mp h
      obtain rfl : [t] = rows := Except.ok.inj h
      obtain rfl := of_eq_ok ht
      exact ⟨rfl, by simp, List.pairwise_singleton ..⟩
    | succ count =>
      obtain ⟨⟨row, rest'⟩, hsplit, h⟩ := bind_eq_ok.mp h
      obtain ⟨t, ht, h⟩ := bind_eq_ok.mp h
      obtain ⟨rows', hrows, h⟩ := bind_eq_ok.mp h
      obtain rfl : t :: rows' = rows := Except.ok.inj h
      obtain rfl := of_eq_ok ht
      obtain ⟨ha, hle, rfl, rfl⟩ := Segment.eq_extract_of_splitAt hs hsplit
      have hfirst := extract_isRange hs (Nat.zero_mod _) (show 0 + sub.size ≤ _ by omega)
      have hrest := extract_isRange hs ha
        (show sub.size + (rest.elems.size - sub.size) ≤ rest.elems.size by omega)
      -- a row that is split off ends on a block
      have hsize : (rest.elems.extract 0 sub.size).size = sub.size :=
        hfirst.size.trans (DType.blocksFor_mul_of_mod ha)
      obtain ⟨hlen, hstart, hapart⟩ := ih hrest.scaled hrows
      refine ⟨by rw [List.length_cons, hlen], ?_, List.pairwise_cons.mpr ⟨fun r hr => ?_, hapart⟩⟩
      · rintro r (_ | ⟨_, hr⟩)
        · exact Nat.le_refl _
        · exact Nat.le_trans (Nat.le_add_right ..) (hstart r hr)
      · rw [hsize]
        exact hstart r hr

end Target

namespace Segment

variable {α : Type} [Scalar α]

/-- What is written to a part of an owner, however it has been cut out, is written to
the owner where the offsets of the cuts add up to. The rows of a part are parts like
that, one for each leading index and each a row after the one before it, and writes to
different rows change the owner in the same way in either order. -/
theorem write_acts_on_owner (e : Elements α) (he : e.WellFormed) (cuts : List Cut)
    (s : Segment α) (hs : e.whole.cutAll cuts = .ok s) :
    s.ActsOn e (cuts.map Cut.offset).sum ∧
      ∀ (shape : Shape) (t : Target α) (rows : List (Target α)), Target.of shape s = .ok t → t.rows = .ok rows →
        rows.length = shape.first ∧
        (∀ (i : Nat) (r : Target α), rows[i]? = some r →
          r.shape.dims = shape.dims.drop 1 ∧
          r.segment.ActsOn e ((cuts.map Cut.offset).sum + i * volume (shape.dims.drop 1)) ∧
          ∃ more, e.whole.cutAll (cuts ++ more) = .ok r.segment) ∧
        rows.Pairwise fun r r' => r.segment.Independent e r'.segment := by
  obtain ⟨hstart, n, hrange⟩ := cutAll_isRange (whole_isRange he.scaled) hs
  have hstart : s.start = (cuts.map Cut.offset).sum := hstart.trans (Nat.zero_add _)
  refine ⟨hstart ▸ actsOn_of_isRange he hrange, fun shape t rows ht hrows => ?_⟩
  obtain rfl := Target.of_eq_ok ht
  obtain ⟨sub, hsub, hrows⟩ := bind_eq_ok.mp hrows
  obtain ⟨hlen, -, hapart⟩ := Target.rowsFrom_apart hrange.scaled hrows
  have hrow {i : Nat} {r : Target α} (hr : rows[i]? = some r) :=
    Target.rowsFrom_divides (reached_divides he.scaled cuts)
      ⟨[], by rw [List.append_nil]; exact hs⟩ hrows hr
  have hpart {r : Target α} (hr : r ∈ rows) :
      ∃ m, e.IsRange r.segment.start m r.segment.elems := by
    obtain ⟨i, hi⟩ := List.getElem?_of_mem hr
    obtain ⟨-, -, more, hmore⟩ := hrow hi
    exact (cutAll_isRange (whole_isRange he.scaled) hmore).2
  refine ⟨hlen, fun i r hr => ?_, hapart.imp_of_mem fun hr hr' hle => ?_⟩
  · obtain ⟨rfl, hrstart, hreached⟩ := hrow hr
    obtain ⟨m, hm⟩ := hpart (List.mem_of_getElem? hr)
    have hsum : r.segment.start =
        (cuts.map Cut.offset).sum + i * volume (shape.dims.drop 1) := by
      rw [hrstart, ← drop_dims hsub, hstart]
      rfl
    exact ⟨drop_dims hsub, hsum ▸ actsOn_of_isRange he hm, hreached⟩
  · obtain ⟨n, hn⟩ := hpart hr
    obtain ⟨m, hm⟩ := hpart hr'
    exact independent_of_apart he hn hm hle

/-- Four blocks of ones, two to a byte. -/
def fourBlocks : Elements Binary32 := .q4 (.replicate 64 0x99) (.replicate 4 ⟨0x3f800000⟩)

/-- The two blocks in the middle. -/
def middle : Segment Binary32 := ⟨32, .q4 (.replicate 32 0x99) (.replicate 2 ⟨0x3f800000⟩)⟩

/-- One of them as a matrix. -/
def middleRow (start : Nat) : Target Binary32 :=
  ⟨⟨[8, 4], by decide, by decide⟩, ⟨start, .q4 (.replicate 16 0x99) #[⟨0x3f800000⟩]⟩⟩

theorem write_acts_on_owner_middle :
    fourBlocks.WellFormed ∧ fourBlocks.whole.cutAll [.after 32, .before 64] = .ok middle ∧
      (∃ s', update (Elements.write 5 #[⟨0x40000000⟩]) middle = .ok () s' ∧
        Elements.write 37 #[⟨0x40000000⟩] fourBlocks = .ok () (fourBlocks.put s')) ∧
      (middleRow 32).segment.ActsOn fourBlocks 32 ∧ (middleRow 64).segment.ActsOn fourBlocks 64 ∧
      (middleRow 32).segment.Independent fourBlocks (middleRow 64).segment := by
  have hwell : fourBlocks.WellFormed := ⟨rfl, by decide⟩
  have hcut : fourBlocks.whole.cutAll [.after 32, .before 64] = .ok middle := rfl
  obtain ⟨hacts, hrows⟩ := write_acts_on_owner fourBlocks hwell _ middle hcut
  obtain ⟨-, heach, hpairs⟩ := hrows ⟨[2, 8, 4], by decide, by decide⟩ _
    [middleRow 32, middleRow 64] rfl rfl
  have hfirst := (heach 0 (middleRow 32) rfl).2.1
  have hsecond := (heach 1 (middleRow 64) rfl).2.1
  exact ⟨hwell, hcut, hacts.write 5 #[⟨0x40000000⟩] (by decide), hfirst, hsecond,
    List.rel_of_pairwise_cons hpairs (List.mem_singleton_self _)⟩

end Segment

end BlockTensor
