import BlockTensor.Proofs.Allocation
import BlockTensor.Proofs.CacheLog
import BlockTensor.Proofs.Refusal
import BlockTensor.Proofs.ViewChain

/-!
# Workspaces

A `Workspace` is some tensors and a cache, and a run is any sequence of commands:
make tensors out of nothing or out of those there are (`Make`), write to one of
them or to a part of it (`Edit`, `PartEdit`), lend from the cache, release to it.
A command that fails leaves what it had written by then; a command that names a
tensor that is not there does nothing.

`Workspace.Keeps P` says that all tensors satisfy `P`, the parked ones included,
and `step_keeps` leaves for a command to be shown what it makes or edits itself.
-/

namespace BlockTensor

open Outcome Update

variable {α : Type}

/-- A view of one of some tensors: which one, and how the view is made. -/
structure Operand where
  tensor : Nat
  steps : List View.Step

/-- A backend whose kernels, if it has any, write to the buffer that they are
given and to nothing else. -/
def Backend.InPlace : Backend α → Prop
  | .native n => ∀ c a b r, (n.table.run c a b r).layout = r.layout
  | _ => True

variable [Scalar α]

/-- The view, if there is one. -/
def Operand.view (ts : List (Tensor α)) (o : Operand) : Outcome (View α) := do
  let t ← Buffer.read ts.toArray o.tensor
  (← t.view).followAll o.steps

/-! ## Making tensors -/

/-- A way to make tensors. -/
inductive Make (α : Type)
  | zeros (d : DType) (shape : Shape)
  | ones (shape : Shape)
  | new (values : Array α) (shape : Shape)
  | ofValues (d : DType) (shape : Shape) (values : Array α)
  | ofMapping (bytes : Array UInt8) (d : DType) (shape : Shape) (dataOffset : Nat)
    (scalesOffset : Option Nat)
  | share (i : Nat)
  | reshape (i : Nat) (shape : Shape)
  | quantize (i : Nat) (d : DType)
  /-- Permute axes, and make a tensor of the view if it is one. -/
  | transpose (i : Nat) (perm : List Nat)
  | split (i count dim : Nat)
  | toTensor (src : Operand)
  /-- Encode a window of a view on a backend. -/
  | encode (be : Backend α) (src : Operand) (d : DType) (offset len : Nat)
  | matmul (be : Backend α) (hbe : be.InPlace) (i j : Nat)

/-- The tensors that are made. -/
def Make.run (ts : List (Tensor α)) : Make α → Outcome (List (Tensor α))
  | zeros d shape => return [← Tensor.zeros d shape]
  | ones shape => return [← Tensor.ones shape]
  | new values shape => return [← Tensor.new values shape]
  | ofValues d shape values => return [← Tensor.ofValues d shape values]
  | ofMapping bytes d shape dataOffset scalesOffset =>
    return [← Tensor.ofMapping bytes d shape dataOffset scalesOffset]
  | share i => return [(← Buffer.read ts.toArray i).share]
  | reshape i shape => return [← (← Buffer.read ts.toArray i).reshape shape]
  | quantize i d => return [← (← Buffer.read ts.toArray i).quantize d]
  | transpose i perm => return [← (← (← Buffer.read ts.toArray i).transpose perm).toTensor]
  | split i count dim => do (← Buffer.read ts.toArray i).split count dim
  | toTensor src => return [← (← src.view ts).toTensor]
  | encode be src d offset len => return [← be.quantize (← src.view ts) d offset len]
  | matmul be _ i j =>
    return [← Tensor.matmul be (← Buffer.read ts.toArray i) (← Buffer.read ts.toArray j)]

/-! ## Writing to tensors -/

/-- An update of a destination by a backend. The operands may be any views. -/
inductive Work (α : Type)
  | compute (c : Compute α)
  | saxpyRows (alpha x : View α) (xOffset yOffset limit : Nat) (rows : RowSpan)
  | batchDotProductWithFallback (a b : View α) (w : BatchWindow)

/-- The update of a backend. -/
def Work.run (be : Backend α) (dst : Shape) : Work α → Update (Elements α) Unit
  | compute c => c.run be dst
  | saxpyRows alpha x xOffset yOffset limit rows =>
    be.saxpyRows alpha x xOffset yOffset limit rows dst
  | batchDotProductWithFallback a b w => do
    let _ ← be.batchDotProductWithFallback a b w dst
    return ()

/-- A way to write to a part of a tensor. -/
inductive PartEdit (α : Type)
  | set (v : α) (index : List Nat)
  | fillZero
  | copyFrom (src : Operand) (source start len : Nat)
  | work (be : Backend α) (w : Work α)

/-- The update of the part. -/
def PartEdit.run (ts : List (Tensor α)) : PartEdit α → Update (Target α) Unit
  | set v index => Target.set v index
  | fillZero => Target.update fun _ => modify Elements.fillZero
  | copyFrom src source start len => do
    let v ← ofOutcome (src.view ts)
    Target.copyFrom v source start len
  | work be w => Target.update (w.run be)

/-- A way to write to a tensor. -/
inductive Edit (α : Type)
  | set (v : α) (index : List Nat)
  | clear
  | copyFrom (src : Operand) (source start len : Nat)
  | part (path : List Target.Step) (m : PartEdit α)

/-- The update of the tensor. -/
def Edit.run (ts : List (Tensor α)) : Edit α → Update (Tensor α) Unit
  | set v index => Tensor.set v index
  | clear => Tensor.clear
  | copyFrom src source start len => do
    let v ← ofOutcome (src.view ts)
    Tensor.copyFrom v source start len
  | part path m => Tensor.updatePart path (m.run ts)

/-! ## Runs -/

/-- Tensors in the order in which they were made, and a cache. -/
structure Workspace (α : Type) where
  tensors : List (Tensor α)
  cache : Cache α

namespace Workspace

/-- What may be done. Tensors are named by their position. -/
inductive Command (α : Type)
  | make (m : Make α)
  | edit (i : Nat) (e : Edit α)
  | lend (key : CacheKey)
  | release (i : Nat)
  | clearCache

/-- Nothing yet. -/
def start (capacity : Nat) : Workspace α := ⟨[], .empty capacity⟩

/-- The workspace after a command, whether it succeeded or not. -/
def step (w : Workspace α) : Command α → Workspace α
  | .make m =>
    match m.run w.tensors with
    | .ok us => { w with tensors := w.tensors ++ us }
    | .error _ => w
  | .edit i e =>
    { w with tensors := w.tensors.modify i fun t => left (e.run w.tensors t) }
  | .lend key =>
    match (Cache.get key).exec w.cache with
    | (.ok l, c) => ⟨w.tensors ++ [l.tensor], c⟩
    | (.error _, c) => { w with cache := c }
  | .release i =>
    match w.tensors[i]? with
    | some t => ⟨w.tensors.eraseIdx i, w.cache.release t⟩
    | none => w
  | .clearCache => { w with cache := w.cache.clear }

/-- The workspace after some commands. -/
def run (w : Workspace α) (cs : List (Command α)) : Workspace α := cs.foldl step w

/-- Each command meets a condition on the workspace in which it is run. -/
def Along (C : Workspace α → Command α → Prop) : Workspace α → List (Command α) → Prop
  | _, [] => True
  | w, c :: cs => C w c ∧ Along C (w.step c) cs

theorem along_of_forall {C : Workspace α → Command α → Prop} (h : ∀ w c, C w c)
    (w : Workspace α) (cs : List (Command α)) : w.Along C cs := by
  induction cs generalizing w with
  | nil => trivial
  | cons c cs ih => exact ⟨h w c, ih _⟩

/-- What each command keeps under its condition, a run keeps. -/
theorem run_of_step {C : Workspace α → Command α → Prop} {I : Workspace α → Prop}
    (h : ∀ w c, I w → C w c → I (w.step c)) {w : Workspace α} {cs : List (Command α)}
    (hw : I w) (hcs : w.Along C cs) : I (w.run cs) := by
  induction cs generalizing w with
  | nil => exact hw
  | cons c cs ih => exact ih (h w c hw hcs.1) hcs.2

/-- All tensors satisfy `P`, the parked ones included. -/
structure Keeps (P : Tensor α → Prop) (w : Workspace α) : Prop where
  tensors : ∀ t ∈ w.tensors, P t
  parked : w.cache.Stocked fun key e => P (.owning key.shape e)

omit [Scalar α] in
theorem keeps_start (P : Tensor α → Prop) (capacity : Nat) :
    (start capacity : Workspace α).Keeps P :=
  ⟨nofun, .empty capacity⟩

/-- A command keeps what it makes and edits itself. -/
theorem step_keeps {P : Tensor α → Prop} {w : Workspace α} (hw : w.Keeps P) (c : Command α)
    (hmake : ∀ m, c = .make m → ∀ us, m.run w.tensors = .ok us → ∀ u ∈ us, P u)
    (hedit : ∀ i e, c = .edit i e → ∀ t ∈ w.tensors, P (left (e.run w.tensors t)))
    (hzeros : ∀ d shape t, Tensor.zeros d shape = .ok t → P t) : (w.step c).Keeps P := by
  cases c with
  | make m =>
    dsimp only [step]
    cases hm : m.run w.tensors with
    | error f => exact hw
    | ok us =>
      refine ⟨fun t ht => ?_, hw.parked⟩
      obtain ht | ht := List.mem_append.mp ht
      · exact hw.tensors t ht
      · exact hmake m rfl us hm t ht
  | edit i e =>
    refine ⟨fun t ht => ?_, hw.parked⟩
    obtain ⟨j, hj⟩ := List.mem_iff_getElem?.mp ht
    obtain ⟨x, hx, rfl⟩ := Option.map_eq_some_iff.mp ((List.getElem?_modify ..).symm.trans hj)
    have hx := List.mem_of_getElem? hx
    split
    · exact hedit i e rfl x hx
    · exact hw.tensors x hx
  | lend key =>
    obtain ⟨hparked, hlent⟩ := hw.parked.get key
    dsimp only [step]
    cases hget : (Cache.get key).exec w.cache with
    | mk x c =>
      rw [hget] at hparked hlent
      cases x with
      | error f => exact ⟨hw.tensors, hparked⟩
      | ok l =>
        refine ⟨fun t ht => ?_, hparked⟩
        obtain ht | ht := List.mem_append.mp ht
        · exact hw.tensors t ht
        obtain rfl := List.mem_singleton.mp ht
        obtain ⟨elems, hP, hl⟩ | hl := hlent rfl
        · rw [hl]
          exact hP
        · exact hzeros _ _ _ hl
  | release i =>
    dsimp only [step]
    cases ht : w.tensors[i]? with
    | none => exact hw
    | some t =>
      have hP := hw.tensors t (List.mem_of_getElem? ht)
      refine ⟨fun u hu => hw.tensors u (List.mem_of_mem_eraseIdx hu), hw.parked.release ?_⟩
      intro elems he
      obtain ⟨shape, storage⟩ := t
      cases storage with
      | owned e =>
        obtain rfl := Option.some.inj he
        exact hP
      | _ => cases he
  | clearCache => exact ⟨hw.tensors, .clear w.cache⟩

end Workspace

end BlockTensor
