import Mathlib.Data.List.Forall2
import BlockTensor.Proofs.Outcome

/-!
# Reading and writing runs of a buffer

* `cut_eq_ok` says when a run may be cut out and what it is.
* `generate_eq_mapM` turns a generating loop into a map over its positions, and
  `cut_eq_generate` says that a cut reads one entry after the other.
* `mapM_of_ok` and `mapM_congr` are about maps that cannot fail, and maps that
  cannot be told apart; `mapM_eq_error` is about maps that can fail in one way, and
  `forall₂_of_mapM` and `getElem?_of_mapM` about what a map gave.
* `foldlM_of_ok` and `exists_foldlM` are about loops that cannot fail.
* `blit_blit` joins two adjacent writes.
-/

namespace BlockTensor

open Outcome

variable {β γ δ : Type}

theorem mapM_of_ok {f : β → Outcome γ} {g : β → γ} {xs : List β} (h : ∀ x ∈ xs, f x = .ok (g x)) :
    xs.mapM f = .ok (xs.map g) := by
  induction xs with
  | nil => rfl
  | cons x xs ih =>
    rw [List.mapM_cons, h x List.mem_cons_self, ih fun y hy => h y (List.mem_cons_of_mem _ hy)]
    rfl

theorem mapM_congr {f g : β → Outcome γ} {xs : List β} (h : ∀ x ∈ xs, f x = g x) :
    xs.mapM f = xs.mapM g := by
  induction xs with
  | nil => rfl
  | cons x xs ih =>
    rw [List.mapM_cons, List.mapM_cons, h x List.mem_cons_self,
      ih fun y hy => h y (List.mem_cons_of_mem _ hy)]

theorem mapM_map_result {f : β → Outcome γ} (g : γ → δ) (xs : List β) :
    (xs.mapM fun x => do return g (← f x)) = (do return (← xs.mapM f).map g) := by
  induction xs with
  | nil => rfl
  | cons x xs ih =>
    rw [List.mapM_cons, List.mapM_cons, ih]
    cases f x with
    | error e => rfl
    | ok v => cases xs.mapM f <;> rfl

/-- A map stops with the one error that its steps can stop with, if one of them does. -/
theorem mapM_eq_error {f : β → Outcome γ} {fault : Fault} {xs : List β}
    (h : ∀ x ∈ xs, (∃ v, f x = .ok v) ∨ f x = .error fault) (hx : ∃ x ∈ xs, f x = .error fault) :
    xs.mapM f = .error fault := by
  induction xs with
  | nil => simp at hx
  | cons y xs ih =>
    rw [List.mapM_cons]
    obtain ⟨v, hv⟩ | hy := h y List.mem_cons_self
    · obtain ⟨x, hmem, hfail⟩ := hx
      have hrest : x ∈ xs := by
        refine (List.mem_cons.mp hmem).resolve_left ?_
        rintro rfl
        rw [hv] at hfail
        cases hfail
      rw [hv, ok_bind, ih (fun z hz => h z (List.mem_cons_of_mem _ hz)) ⟨x, hrest, hfail⟩]
      rfl
    · rw [hy]
      rfl

theorem foldlM_of_ok {f : γ → β → Outcome γ} {g : γ → β → γ} {xs : List β}
    (h : ∀ x ∈ xs, ∀ acc, f acc x = .ok (g acc x)) (a : γ) :
    xs.foldlM f a = .ok (xs.foldl g a) := by
  induction xs generalizing a with
  | nil => rfl
  | cons x xs ih =>
    rw [List.foldlM_cons, h x List.mem_cons_self, ok_bind,
      ih (fun y hy => h y (List.mem_cons_of_mem _ hy)), List.foldl_cons]

/-- A loop gives a value, if each of its steps does. -/
theorem exists_foldlM {f : γ → β → Outcome γ} {xs : List β}
    (h : ∀ x ∈ xs, ∀ acc, ∃ v, f acc x = .ok v) (a : γ) : ∃ v, xs.foldlM f a = .ok v := by
  induction xs generalizing a with
  | nil => exact ⟨a, rfl⟩
  | cons x xs ih =>
    obtain ⟨b, hb⟩ := h x List.mem_cons_self a
    obtain ⟨v, hv⟩ := ih (fun y hy => h y (List.mem_cons_of_mem _ hy)) b
    exact ⟨v, by rw [List.foldlM_cons, hb, ok_bind, hv]⟩

/-- What a map gave, entry by entry. -/
theorem forall₂_of_mapM {f : β → Outcome γ} {xs : List β} {ys : List γ} (h : xs.mapM f = .ok ys) :
    List.Forall₂ (fun x y => f x = .ok y) xs ys := by
  induction xs generalizing ys with
  | nil =>
    obtain rfl : [] = ys := Except.ok.inj h
    exact .nil
  | cons x xs ih =>
    rw [List.mapM_cons] at h
    obtain ⟨y, hy, h⟩ := bind_eq_ok.mp h
    obtain ⟨ys', hys, h⟩ := bind_eq_ok.mp h
    obtain rfl : y :: ys' = ys := Except.ok.inj h
    exact .cons hy (ih hys)

theorem getElem?_of_mapM {f : β → Outcome γ} {xs : List β} {ys : List γ} (h : xs.mapM f = .ok ys)
    {i : Nat} {x : β} (hx : xs[i]? = some x) : ∃ y, f x = .ok y ∧ ys[i]? = some y := by
  have h := forall₂_of_mapM h
  obtain ⟨hi, rfl⟩ := List.getElem?_eq_some_iff.mp hx
  have hy : i < ys.length := h.length_eq ▸ hi
  exact ⟨ys[i], h.get hi hy, List.getElem?_eq_getElem hy⟩

/-- A map gives values, if each of its steps does. -/
theorem exists_mapM {f : β → Outcome γ} {xs : List β} (h : ∀ x ∈ xs, ∃ y, f x = .ok y) :
    ∃ ys, xs.mapM f = .ok ys := by
  induction xs with
  | nil => exact ⟨[], rfl⟩
  | cons x xs ih =>
    obtain ⟨y, hy⟩ := h x List.mem_cons_self
    obtain ⟨ys, hys⟩ := ih fun z hz => h z (List.mem_cons_of_mem _ hz)
    exact ⟨y :: ys, by rw [List.mapM_cons, hy, ok_bind, hys]; rfl⟩

theorem of_mem_mapM {f : β → Outcome γ} {xs : List β} {ys : List γ} (h : xs.mapM f = .ok ys)
    {y : γ} (hy : y ∈ ys) : ∃ x ∈ xs, f x = .ok y := by
  have h := forall₂_of_mapM h
  obtain ⟨i, hi, rfl⟩ := List.getElem_of_mem hy
  have hx : i < xs.length := h.length_eq ▸ hi
  exact ⟨xs[i], List.getElem_mem hx, h.get hx hi⟩

theorem exists_of_mapM {f : β → Outcome γ} {xs : List β} {ys : List γ} (h : xs.mapM f = .ok ys)
    {x : β} (hx : x ∈ xs) : ∃ y ∈ ys, f x = .ok y := by
  have h := forall₂_of_mapM h
  obtain ⟨i, hi, rfl⟩ := List.getElem_of_mem hx
  have hy : i < ys.length := h.length_eq ▸ hi
  exact ⟨ys[i], List.getElem_mem hy, h.get hi hy⟩

namespace Buffer

theorem mem_of_read {xs : List β} {i : Nat} {x : β} (h : read xs.toArray i = .ok x) : x ∈ xs :=
  List.mem_of_getElem? (List.getElem?_toArray ▸ read_eq_ok.mp h)

theorem read_of_lt {a : Array β} {i : Nat} (h : i < a.size) : read a i = .ok a[i] :=
  read_eq_ok.mpr (Array.getElem?_eq_getElem h)

theorem cut_of_le {a : Array β} {lo hi : Nat} (h : lo ≤ hi) (h' : hi ≤ a.size) :
    cut a lo hi = .ok (a.extract lo hi) := if_pos ⟨h, h'⟩

theorem cut_eq_ok {a b : Array β} {lo hi : Nat} :
    cut a lo hi = .ok b ↔ lo ≤ hi ∧ hi ≤ a.size ∧ b = a.extract lo hi := by
  unfold cut
  split
  · simp_all [eq_comm]
  · rename_i hn
    constructor
    · exact fun h => absurd h (stop_ne_ok _ _)
    · exact fun ⟨h, h', _⟩ => absurd ⟨h, h'⟩ hn

theorem getElem?_extract_of_lt {a : Array β} {lo hi i : Nat} (hi' : hi ≤ a.size)
    (h : i < hi - lo) : (a.extract lo hi)[i]? = a[lo + i]? := by
  rw [Array.getElem?_extract, if_pos (by omega)]

theorem size_extract_of_le {a : Array β} {start len : Nat} (h : start + len ≤ a.size) :
    (a.extract start (start + len)).size = len := by
  rw [Array.size_extract]
  omega

theorem size_chunk (a : Array β) (len b : Nat) :
    (chunk a len b).size = min len (a.size - b * len) := by
  rw [chunk, Array.size_extract]
  omega

theorem getElem?_chunk (a : Array β) {len b i : Nat} (h : i < len) :
    (chunk a len b)[i]? = a[b * len + i]? := by
  rw [chunk, Array.getElem?_extract]
  split
  · rfl
  · rw [Array.getElem?_eq_none (by omega)]

theorem generateFrom_eq (f : Nat → Outcome β) (n start : Nat) (acc : Array β) :
    generateFrom f n start acc =
      (do return acc ++ (← (List.range' start n).mapM f).toArray) := by
  induction n generalizing start acc with
  | zero => simp [generateFrom]
  | succ n ih =>
    rw [generateFrom, List.range'_succ, List.mapM_cons]
    cases f start with
    | error e => rfl
    | ok v =>
      rw [ok_bind, ok_bind, ih]
      cases (List.range' (start + 1) n).mapM f with
      | error e => rfl
      | ok vs => simp

/-- A generating loop maps its positions, in their order. -/
theorem generate_eq_mapM (start n : Nat) (f : Nat → Outcome β) :
    generate start n f = (do return (← (List.range' start n).mapM f).toArray) := by
  rw [generate, generateFrom_eq]
  cases (List.range' start n).mapM f with
  | error e => rfl
  | ok vs => simp

theorem generate_of_ok {start n : Nat} {f : Nat → Outcome β} {g : Nat → β}
    (h : ∀ i < n, f (start + i) = .ok (g (start + i))) :
    generate start n f = .ok ((List.range' start n).map g).toArray := by
  rw [generate_eq_mapM, mapM_of_ok (g := g)]
  · rfl
  · intro i hi
    obtain ⟨k, hk, rfl⟩ := List.mem_range'.mp hi
    simpa using h k hk

/-- What a generating loop gave, position by position. -/
theorem of_generate {start n : Nat} {f : Nat → Outcome β} {xs : Array β}
    (h : generate start n f = .ok xs) :
    xs.size = n ∧ ∀ i (hi : i < xs.size), f (start + i) = .ok xs[i] := by
  rw [generate_eq_mapM] at h
  obtain ⟨ys, hys, h⟩ := bind_eq_ok.mp h
  obtain rfl : ys.toArray = xs := Except.ok.inj h
  have hall := forall₂_of_mapM hys
  have hlen : n = ys.length := by simpa using hall.length_eq
  refine ⟨hlen.symm, fun i hi => ?_⟩
  have hi : i < ys.length := hi
  have := hall.get (by simpa using hlen ▸ hi) hi
  simpa using this

theorem map_generate (start n : Nat) (f : Nat → Outcome β) (g : β → γ) :
    (do return (← generate start n f).map g) = generate start n fun i => do return g (← f i) := by
  rw [generate_eq_mapM, generate_eq_mapM, mapM_map_result]
  cases (List.range' start n).mapM f with
  | error e => rfl
  | ok vs => simp

/-- Cutting out a run reads its entries one after the other. -/
theorem cut_eq_generate {a : Array β} {start n : Nat} (h : start + n ≤ a.size) :
    cut a start (start + n) = generate start n (read a) := by
  rcases Nat.eq_zero_or_pos n with rfl | hn
  · rw [cut_of_le (by omega) (by omega)]
    exact congrArg Except.ok (Array.extract_eq_empty_of_le (Nat.min_le_left ..))
  have : Inhabited β := ⟨a[start]⟩
  rw [cut_of_le (by omega) h, generate_of_ok (g := fun i => a[i]!)]
  · congr 1
    apply Array.ext
    · simp
      omega
    · intro i hi _
      have : start + i < a.size := by
        simp only [Array.size_extract] at hi
        omega
      simp [getElem!_pos a (start + i) this]
  · intro i hi
    rw [read_of_lt (by omega), getElem!_pos a (start + i) (by omega)]

theorem getElem?_blit_add {a b : Array β} {start i : Nat} (h : start + b.size ≤ a.size)
    (hi : i < b.size) : (blit a start b)[start + i]? = b[i]? := by
  rw [getElem?_blit, if_pos (by omega), Nat.add_sub_cancel_left]

/-- What fills a buffer is what remains of it. -/
theorem blit_all {a b : Array β} (h : b.size = a.size) : blit a 0 b = b := by
  refine Array.ext_getElem? fun i => ?_
  rw [getElem?_blit]
  split
  · rfl
  · rw [Array.getElem?_eq_none (by omega), Array.getElem?_eq_none (by omega)]

/-- Two adjacent writes are one. -/
theorem blit_blit (a : Array β) (start : Nat) (xs ys : Array β) :
    blit (blit a start xs) (start + xs.size) ys = blit a start (xs ++ ys) := by
  apply Array.ext_getElem?
  intro i
  simp only [getElem?_blit, size_blit, Array.size_append, Array.getElem?_append]
  by_cases h : start + xs.size ≤ i ∧ i < start + xs.size + ys.size ∧ i < a.size
  · rw [if_pos h, if_pos (by omega), if_neg (by omega)]
    congr 1
    omega
  · rw [if_neg h]
    by_cases h' : start ≤ i ∧ i < start + xs.size ∧ i < a.size
    · rw [if_pos h', if_pos (by omega), if_pos (by omega)]
    · rw [if_neg h', if_neg (by omega)]

theorem blit_map_blit (g : γ → β) (a : Array β) (start : Nat) (xs ys : Array γ) :
    blit (blit a start (xs.map g)) (start + xs.size) (ys.map g) =
      blit a start ((xs ++ ys).map g) := by
  have h := blit_blit a start (xs.map g) (ys.map g)
  rwa [Array.size_map, ← Array.map_append] at h

end Buffer

end BlockTensor
