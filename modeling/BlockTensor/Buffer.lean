import BlockTensor.Outcome

/-!
# Buffers

Arrays read and written the way storage is: reading or cutting outside a
buffer aborts, writing outside it changes nothing.

* `Buffer.cut a lo hi` are the entries `lo ≤ i < hi`.
* `Buffer.blit a start src` is `a` with `src` written from `start` on:
  `getElem?_blit` says what each entry is, and `size_blit` that none is added.
-/

namespace BlockTensor.Buffer

variable {β : Type}

/-- Entry `i`. -/
def read (a : Array β) (i : Nat) : Outcome β :=
  match a[i]? with
  | some v => .ok v
  | none => .stop .outOfBounds

/-- The entries from `lo` up to `hi`. -/
def cut (a : Array β) (lo hi : Nat) : Outcome (Array β) :=
  if lo ≤ hi ∧ hi ≤ a.size then .ok (a.extract lo hi) else .stop .outOfBounds

/-- The `b`-th run of `len` entries, short where the buffer ends. -/
def chunk (a : Array β) (len b : Nat) : Array β :=
  a.extract (b * len) (b * len + len)

/-- `a` with the entries of a list written from `start` on. -/
def writeList (a : Array β) (start : Nat) : List β → Array β
  | [] => a
  | v :: vs => writeList (a.setIfInBounds start v) (start + 1) vs

/-- `a` with the entries of `src` written from `start` on. -/
def blit (a : Array β) (start : Nat) (src : Array β) : Array β :=
  writeList a start src.toList

/-- `f` at each of `n` positions from `start` on, pushed onto `acc`. -/
def generateFrom (f : Nat → Outcome β) : (n start : Nat) → (acc : Array β) → Outcome (Array β)
  | 0, _, acc => .ok acc
  | n + 1, start, acc => do
    let v ← f start
    generateFrom f n (start + 1) (acc.push v)

/-- `f` at each of `n` positions from `start` on, up to the first at which it
fails. -/
def generate (start n : Nat) (f : Nat → Outcome β) : Outcome (Array β) :=
  generateFrom f n start #[]

theorem read_eq_ok {a : Array β} {i : Nat} {v : β} : read a i = .ok v ↔ a[i]? = some v := by
  unfold read
  cases a[i]? <;> simp [Outcome.stop]

@[simp] theorem size_writeList (a : Array β) (start : Nat) (vs : List β) :
    (writeList a start vs).size = a.size := by
  induction vs generalizing a start with
  | nil => rfl
  | cons v vs ih => simp [writeList, ih]

theorem getElem?_writeList (a : Array β) (start : Nat) (vs : List β) (i : Nat) :
    (writeList a start vs)[i]? =
      if start ≤ i ∧ i < start + vs.length ∧ i < a.size then vs[i - start]? else a[i]? := by
  induction vs generalizing a start with
  | nil => simp [writeList]; omega
  | cons v vs ih =>
    rw [writeList, ih, Array.size_setIfInBounds, Array.getElem?_setIfInBounds, List.length_cons]
    by_cases h : start = i
    · subst h
      rw [if_neg (by omega), if_pos rfl, Nat.sub_self, List.getElem?_cons_zero]
      by_cases hs : start < a.size <;> simp [hs]
    · rw [if_neg h]
      by_cases hc : start + 1 ≤ i ∧ i < start + 1 + vs.length ∧ i < a.size
      · rw [if_pos hc, if_pos ⟨by omega, by omega, hc.2.2⟩,
          show i - start = i - (start + 1) + 1 by omega, List.getElem?_cons_succ]
      · rw [if_neg hc, if_neg (by omega)]

@[simp] theorem size_blit (a : Array β) (start : Nat) (src : Array β) :
    (blit a start src).size = a.size := size_writeList ..

/-- Each entry of a written buffer is the new one inside the range and the old
one outside it. -/
theorem getElem?_blit (a : Array β) (start : Nat) (src : Array β) (i : Nat) :
    (blit a start src)[i]? =
      if start ≤ i ∧ i < start + src.size ∧ i < a.size then src[i - start]? else a[i]? := by
  simp [blit, getElem?_writeList]

theorem blit_empty (a : Array β) (start : Nat) : blit a start #[] = a := rfl

end BlockTensor.Buffer
