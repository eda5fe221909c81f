import BlockTensor.Scalar

/-!
# Kernels on runs of values

A vector unit works on eight lanes. A run is taken a register at a time, lane by lane, and
the entries that do not fill a register follow one by one.

* `Kernel.mapLanes` updates each entry of a run in place; `Kernel.zip`, `Kernel.scale`,
  `Kernel.axpy` and `Kernel.xpby` are such loops.
* `Kernel.dotLanes` sums every eighth product in a lane, adds the lanes from first to last,
  and then the products that remain.
* `Kernel.dotFused` keeps two registers of sums, adds each product without rounding it
  first, and adds the lanes in pairs.

A machine with a fused multiply-add uses it in the lanes of `Kernel.axpy` and for
`Kernel.dotValues`. The entries after the last register are multiplied and added
separately on every machine.
-/

namespace BlockTensor.Kernel

/-- Values that are worked on at a time. -/
def lanes : Nat := 8

/-! ## Loops over registers -/

/-- A loop over `n` entries: `body` for those of whole registers, a register after the
other, and `tail` for those that remain. -/
def laneLoop {σ : Type} (body tail : σ → Nat → σ) (n : Nat) (s : σ) : σ :=
  let whole := n / lanes
  let s := (List.range whole).foldl
    (fun s k => (List.range lanes).foldl (fun s l => body s (k * lanes + l)) s) s
  (List.range' (whole * lanes) (n - whole * lanes)).foldl tail s

theorem foldl_registers {σ : Type} (step : σ → Nat → σ) (m n : Nat) (s : σ) :
    (List.range n).foldl (fun s k => (List.range m).foldl (fun s l => step s (k * m + l)) s) s =
      (List.range (n * m)).foldl step s := by
  induction n with
  | zero => simp
  | succ n ih =>
    rw [List.range_succ, List.foldl_append, ih, Nat.succ_mul, List.range_add, List.foldl_append,
      List.foldl_map]
    rfl

/-- The entries of whole registers and those that remain are all of them. -/
theorem whole_add_rest (n : Nat) : n / lanes * lanes + (n - n / lanes * lanes) = n :=
  Nat.add_sub_cancel' (Nat.div_mul_le_self n lanes)

/-- Where both parts do the same, the registers do not matter. -/
theorem laneLoop_self {σ : Type} (step : σ → Nat → σ) (n : Nat) (s : σ) :
    laneLoop step step n s = (List.range n).foldl step s := by
  have hrange : List.range n = List.range (n / lanes * lanes) ++
      List.range' (n / lanes * lanes) (n - n / lanes * lanes) := by
    rw [List.range'_eq_map_range, ← List.range_add, whole_add_rest]
  rw [laneLoop, foldl_registers, ← List.foldl_append, ← hrange]

section

variable {α : Type}

/-- Entry `i` replaced by `f i` of it. -/
def mapEntry (f : Nat → α → α) (run : Array α) (i : Nat) : Array α :=
  run.modify i (f i)

/-- `f i` of each entry `i` in a whole register, and `g i` of each that remains. -/
def mapLanes (f g : Nat → α → α) (run : Array α) : Array α :=
  laneLoop (mapEntry f) (mapEntry g) run.size run

/-- After `n` entries the first `n` are replaced. -/
theorem foldl_mapEntry (f : Nat → α → α) (run : Array α) (n i : Nat) :
    ((List.range n).foldl (mapEntry f) run)[i]? =
      if i < n then run[i]?.map (f i) else run[i]? := by
  induction n with
  | zero => simp
  | succ n ih =>
    rw [List.range_succ, List.foldl_append, List.foldl_cons, List.foldl_nil, mapEntry,
      Array.getElem?_modify, ih]
    by_cases hi : n = i
    · subst hi
      simp
    · have hlt : i < n + 1 ↔ i < n := by omega
      simp only [hi, hlt, if_false]

theorem mapLanes_self (f : Nat → α → α) (run : Array α) : mapLanes f f run = run.mapIdx f := by
  refine Array.ext_getElem? fun i => ?_
  rw [mapLanes, laneLoop_self, foldl_mapEntry, Array.getElem?_mapIdx]
  split
  · rfl
  · rw [Array.getElem?_eq_none (by omega)]
    rfl

end

variable {α : Type} [Scalar α]

/-- `f v u` in place of each `v`, where `u` is the entry of `src` in the same place. -/
def zip (f : α → α → α) (run src : Array α) : Array α :=
  let entry (i : Nat) (v : α) : α := f v (src.getD i 0)
  mapLanes entry entry run

/-- `v * factor` in place of each `v`. -/
def scale (factor : α) (run : Array α) : Array α :=
  let entry (_ : Nat) (v : α) : α := v * factor
  mapLanes entry entry run

/-- `v + alpha * u` in place of each `v`. -/
def axpy (alpha : α) (run src : Array α) : Array α :=
  match (Scalar.mulAdd? : Option (α → α → α → α)) with
  | none => zip (fun v u => v + alpha * u) run src
  | some mulAdd =>
    mapLanes (fun i v => mulAdd alpha (src.getD i 0) v) (fun i v => v + alpha * src.getD i 0) run

/-- `u + beta * v` in place of each `v`. -/
def xpby (beta : α) (run src : Array α) : Array α :=
  zip (fun v u => u + beta * v) run src

theorem zip_eq (f : α → α → α) {run src : Array α} (h : src.size = run.size) :
    zip f run src = Array.zipWith f run src := by
  rw [zip, mapLanes_self]
  refine Array.ext (by simp [h]) fun i hi _ => ?_
  have hi : i < src.size := by simpa [h] using hi
  simp [Array.getD_eq_getD_getElem?, hi]

theorem scale_eq (factor : α) (run : Array α) : scale factor run = run.map (· * factor) := by
  rw [scale, mapLanes_self]
  exact Array.ext (by simp) (by simp)

/-- Where a fused multiply-add rounds as the two operations do, the lanes and the entries
after them are combined alike. -/
theorem axpy_eq (hadd : ∀ a b : α, a + b = b + a) (hfused : Scalar.Separable α) (alpha : α)
    {run src : Array α} (h : src.size = run.size) :
    axpy alpha run src = Array.zipWith (fun v u => alpha * u + v) run src := by
  have hcomm : (fun v u => v + alpha * u) = fun v u => alpha * u + v :=
    funext fun v => funext fun u => hadd v (alpha * u)
  rw [axpy]
  split
  · rw [hcomm, zip_eq _ h]
  · rename_i mulAdd hmulAdd
    rw [← zip_eq _ h, zip]
    congr 1
    · exact funext fun i => funext fun v => hfused mulAdd hmulAdd alpha _ v
    · exact funext fun i => funext fun v => hadd v _

theorem xpby_eq (beta : α) {run src : Array α} (h : src.size = run.size) :
    xpby beta run src = Array.zipWith (fun v u => u + beta * v) run src :=
  zip_eq _ h

/-! ## Dot products -/

/-- The product of entries `i`. -/
def product (a b : Array α) (i : Nat) : α := a.getD i 0 * b.getD i 0

/-- The sum that lane `l` of `whole` steps accumulates. -/
def lane (a b : Array α) (whole l : Nat) : α :=
  (List.range whole).foldl (fun acc k => acc + product a b (k * lanes + l)) 0

/-- The dot product of two runs of values, of the length of the first. -/
def dotLanes (a b : Array α) : α :=
  let whole := a.size / lanes
  let head := Scalar.sum ((List.range lanes).map (lane a b whole))
  Scalar.sumFrom head
    ((List.range' (whole * lanes) (a.size - whole * lanes)).map (product a b))

/-- The sum that lane `l` accumulates over the registers from `starts` on. -/
def fusedLane (mulAdd : α → α → α → α) (a b : Array α) (starts : List Nat) (l : Nat) : α :=
  starts.foldl (fun acc i => mulAdd (a.getD (i + l) 0) (b.getD (i + l) 0) acc) 0

/-- The sum of the lanes: the upper half is added to the lower one, and so on. -/
def addLanes (v : Nat → α) : α :=
  ((v 0 + v 4) + (v 2 + v 6)) + ((v 1 + v 5) + (v 3 + v 7))

/-- Where the registers begin that are taken two at a time, the first of each two. -/
def turns (n : Nat) : List Nat :=
  (List.range (n / (2 * lanes))).map (· * (2 * lanes))

/-- Where the register begins that is left over if their number is odd. -/
def leftOver (n : Nat) : List Nat :=
  let done := n / (2 * lanes) * (2 * lanes)
  if done + lanes ≤ n then [done] else []

/-- The dot product of two runs of values, of the length of the shorter. -/
def dotFused (mulAdd : α → α → α → α) (a b : Array α) : α :=
  let n := min a.size b.size
  let first := fusedLane mulAdd a b (turns n ++ leftOver n)
  let second := fusedLane mulAdd a b ((turns n).map (· + lanes))
  let whole := n / lanes * lanes
  Scalar.sumFrom (addLanes fun l => first l + second l)
    ((List.range' whole (n - whole)).map (product a b))

/-- The dot product of two runs of values on the vector unit of the machine. -/
def dotValues (a b : Array α) : α :=
  match (Scalar.mulAdd? : Option (α → α → α → α)) with
  | none => dotLanes a b
  | some mulAdd => dotFused mulAdd a b

end BlockTensor.Kernel
