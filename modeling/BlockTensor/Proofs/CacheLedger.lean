import BlockTensor.Proofs.Session

/-!
# A cache is a list of entries

A `Ledger` is what a cache is to its users: the parked entries in the order of
their release, and three counters. It finds an entry by searching the list, and
drops entries from its front. A cache, with its stacks, its stamps and its running
total, does at each operation what the ledger does (`Cache.keeper_simulates`), so
that in every session of any number of caches, used through any handles, the
tensors given, the counters and the contents are those of ledgers
(`Cache.trace_eq_ledger`).
-/

namespace BlockTensor

variable {α : Type}

/-- The contents of the last entry with a key, and the entries without it. -/
def Entry.takeLast (key : CacheKey) : List (Entry α) → Option (Elements α × List (Entry α))
  | [] => none
  | e :: es =>
    match takeLast key es with
    | some (elems, rest) => some (elems, e :: rest)
    | none => if e.key = key then some (e.elems, es) else none

/-- A cache as its users know it. -/
structure Ledger (α : Type) where
  capacity : Nat
  entries : List (Entry α)
  hits : Nat
  misses : Nat
  evictions : Nat

namespace Ledger

def empty (capacity : Nat) : Ledger α := ⟨capacity, [], 0, 0, 0⟩

/-- The last entry with the key, or zeros. -/
def get [Scalar α] (key : CacheKey) : Update (Ledger α) (Loan α) := fun l =>
  match Entry.takeLast key l.entries with
  | some (elems, rest) =>
    .ok ⟨.owning key.shape elems⟩ { l with entries := rest, hits := l.hits + 1 }
  | none =>
    Update.ofOutcome (Loan.mk <$> Tensor.zeros key.dtype key.shape)
      { l with misses := l.misses + 1 }

/-- Append an owned tensor that is no larger than the capacity, after dropping
entries from the front while it does not fit. -/
def release (l : Ledger α) (t : Tensor α) : Ledger α :=
  match t.owned? with
  | none => l
  | some elems =>
    if l.capacity < elems.nbytes then l
    else
      let kept := Entry.fitting l.capacity elems.nbytes l.entries
      { l with
        entries := kept ++ [⟨⟨t.dtype, t.shape⟩, elems⟩]
        evictions := l.evictions + (l.entries.length - kept.length) }

def clear (l : Ledger α) : Ledger α := { l with entries := [] }

def stats (l : Ledger α) : CacheStats := ⟨l.hits, l.misses, l.evictions, Entry.bytes l.entries⟩

section

variable {l : Ledger α} {t : Tensor α} {key : CacheKey} {elems : Elements α}

theorem exec_get_hit [Scalar α] {rest : List (Entry α)}
    (h : Entry.takeLast key l.entries = some (elems, rest)) :
    (get key).exec l =
      (.ok ⟨.owning key.shape elems⟩, { l with entries := rest, hits := l.hits + 1 }) := by
  rw [Update.exec, get, h]

theorem exec_get_miss [Scalar α] (h : Entry.takeLast key l.entries = none) :
    (get key).exec l =
      (Loan.mk <$> Tensor.zeros key.dtype key.shape, { l with misses := l.misses + 1 }) := by
  rw [Update.exec, get, h]
  exact Update.exec_ofOutcome ..

theorem release_none (ht : t.owned? = none) : l.release t = l := by
  rw [release, ht]

theorem release_large (ht : t.owned? = some elems) (hsize : l.capacity < elems.nbytes) :
    l.release t = l := by
  rw [release, ht]
  exact if_pos hsize

theorem release_fits (ht : t.owned? = some elems) (hsize : elems.nbytes ≤ l.capacity) :
    l.release t = { l with
      entries := Entry.fitting l.capacity elems.nbytes l.entries ++
        [⟨⟨t.dtype, t.shape⟩, elems⟩]
      evictions := l.evictions +
        (l.entries.length - (Entry.fitting l.capacity elems.nbytes l.entries).length) } := by
  rw [release, ht]
  exact if_neg (Nat.not_lt.mpr hsize)

end

/-- Ledgers in use; a loan that ends is released. -/
def keeper [Scalar α] : Keeper (Ledger α) α where
  make := empty
  get := get
  release t l := l.release t
  giveBack loan l := l.release loan.tensor
  clear := clear
  stats := stats
  contents := entries

end Ledger

namespace Entry

variable {key : CacheKey} {es : List (Entry α)}

theorem takeLast_of_ne (h : ∀ e ∈ es, e.key ≠ key) : takeLast key es = none := by
  induction es with
  | nil => rfl
  | cons e es ih =>
    obtain ⟨he, hes⟩ := List.forall_mem_cons.mp h
    rw [takeLast, ih hes]
    exact if_neg he

theorem takeLast_append (xs : List (Entry α)) (e : Entry α) (h : ∀ y ∈ es, y.key ≠ e.key) :
    takeLast e.key (xs ++ e :: es) = some (e.elems, xs ++ es) := by
  induction xs with
  | nil =>
    rw [List.nil_append, takeLast, takeLast_of_ne h]
    exact if_pos rfl
  | cons x xs ih => rw [List.cons_append, takeLast, ih, List.cons_append]

end Entry

namespace Cache

open Release

/-- The parked entries, in the order of their release. -/
def contents (c : Cache α) : List (Entry α) :=
  c.order.filterMap fun (stamp, key) =>
    ((bucket c.idle key).find? fun p => p.stamp = stamp).map fun p => ⟨key, p.elems⟩

/-- Caches in use. -/
def keeper [Scalar α] : Keeper (Cache α) α where
  make := empty
  get := get
  release t c := c.release t
  giveBack := Loan.giveBack
  clear := clear
  stats := stats
  contents := contents

theorem Holds.contents_eq {c : Cache α} {log : List (Release α)} (h : Holds c log) :
    c.contents = entries log := by
  have hfind : ∀ r ∈ log,
      ((bucket c.idle r.key).find? fun p => p.stamp = r.stamp) = some r.parked := by
    intro r hr
    obtain ⟨xs, ys, rfl⟩ := List.append_of_mem hr
    exact h.find_stamp
  rw [contents, h.order, List.filterMap_map, entries, ← List.filterMap_eq_map]
  refine List.filterMap_congr fun r hr => ?_
  show ((bucket c.idle r.key).find? fun p => p.stamp = r.stamp).map _ = _
  rw [hfind r hr]
  rfl

/-- The cache holds the entries of the ledger, and has counted what it has. -/
def Refines (c : Cache α) (l : Ledger α) : Prop :=
  ∃ log, Holds c log ∧ entries log = l.entries ∧ c.capacity = l.capacity ∧ c.stats = l.stats

namespace Refines

variable {c : Cache α} {l : Ledger α}

theorem empty (capacity : Nat) : Refines (empty capacity : Cache α) (Ledger.empty capacity) :=
  ⟨[], holds_empty capacity, rfl, rfl, rfl⟩

theorem clear (h : Refines c l) : Refines c.clear l.clear := by
  obtain ⟨log, -, -, hcap, hstats⟩ := h
  obtain ⟨hhits, hmisses, hevictions, -⟩ := CacheStats.mk.inj hstats
  refine ⟨[], holds_clear c, rfl, hcap, ?_⟩
  show CacheStats.mk c.hits c.misses c.evictions 0 = _
  rw [hhits, hmisses, hevictions]
  rfl

/-- Both give the last entry with a key, or make zeros. -/
theorem get [Scalar α] (h : Refines c l) (key : CacheKey) :
    ((Cache.get key).exec c).1 = ((Ledger.get key).exec l).1 ∧
      Refines ((Cache.get key).exec c).2 ((Ledger.get key).exec l).2 := by
  obtain ⟨log, hlog, hentries, hcap, hstats⟩ := h
  obtain ⟨hhits, hmisses, hevictions, hbytes⟩ := CacheStats.mk.inj hstats
  rcases last_under log key with hnone | ⟨xs, r, ys, rfl, rfl, hys⟩
  · have htake : Entry.takeLast key l.entries = none := by
      rw [← hentries]
      refine Entry.takeLast_of_ne fun e he => ?_
      obtain ⟨r, hr, rfl⟩ := List.mem_map.mp he
      exact hnone r hr
    rw [exec_get_miss (hlog.reuse_none hnone), Ledger.exec_get_miss htake]
    refine ⟨rfl, log, hlog.miss, hentries, hcap, ?_⟩
    show CacheStats.mk c.hits (c.misses + 1) c.evictions c.idleBytes = _
    rw [hhits, hmisses, hevictions, hbytes]
    rfl
  · obtain ⟨c', hreuse, hrest, hcap', hstats'⟩ := hlog.reuse_some hys
    have htake : Entry.takeLast r.key l.entries = some (r.elems, entries (xs ++ ys)) := by
      rw [← hentries, entries, List.map_append, List.map_cons, entries, List.map_append]
      refine Entry.takeLast_append _ _ fun e he => ?_
      obtain ⟨y, hy, rfl⟩ := List.mem_map.mp he
      exact hys y hy
    rw [exec_get_hit hreuse, Ledger.exec_get_hit htake]
    refine ⟨rfl, xs ++ ys, hrest, rfl, hcap'.trans hcap, ?_⟩
    rw [hstats', hhits, hmisses, hevictions]
    rfl

/-- Both park a tensor, after dropping the same entries, or both leave it. -/
theorem release (h : Refines c l) (t : Tensor α) : Refines (c.release t) (l.release t) := by
  obtain ⟨log, hlog, hentries, hcap, hstats⟩ := h
  obtain ⟨hhits, hmisses, hevictions, -⟩ := CacheStats.mk.inj hstats
  cases ht : t.owned? with
  | none =>
    rw [release_none c ht, Ledger.release_none ht]
    exact ⟨log, hlog, hentries, hcap, hstats⟩
  | some elems =>
    by_cases hsize : c.capacity < elems.nbytes
    · rw [release_large ht hsize, Ledger.release_large ht (hcap ▸ hsize)]
      exact ⟨log, hlog, hentries, hcap, hstats⟩
    · have hsize := Nat.le_of_not_lt hsize
      obtain ⟨dropped, rest, stamp, rfl, hlog', hcap', hstats', hfit⟩ :=
        hlog.release_owned ht hsize
      rw [hentries, hcap] at hfit
      have hdropped : l.entries.length - (entries rest).length = dropped.length := by
        rw [← hentries, entries, entries, List.length_map, List.length_map, List.length_append,
          Nat.add_sub_cancel]
      rw [Ledger.release_fits ht (hcap ▸ hsize), ← hfit, hdropped]
      refine ⟨_, hlog', ?_, hcap'.trans hcap, ?_⟩
      · rw [entries, List.map_append]
        rfl
      · rw [hstats', hhits, hmisses, hevictions, Ledger.stats, Entry.bytes_append]
        rfl

end Refines

/-- At each operation a cache does what its ledger does. -/
theorem keeper_simulates [Scalar α] :
    Simulates (keeper : Keeper (Cache α) α) Ledger.keeper Refines fun _ => True where
  make := Refines.empty
  get h := h.get
  lends _ _ _ _ := trivial
  release h t _ := h.release t
  giveBack h l _ := h.release l.tensor
  clear := Refines.clear
  stats h := by
    obtain ⟨-, -, -, -, hstats⟩ := h
    exact hstats
  contents h := by
    obtain ⟨log, hlog, hentries, -⟩ := h
    exact hlog.contents_eq.trans hentries

/-- In every session with caches, the tensors that they give, their counters and
their contents after each act are those of ledgers. -/
theorem trace_eq_ledger [Scalar α] (acts : List (Act α)) :
    (keeper : Keeper (Cache α) α).trace Session.start acts =
      (Ledger.keeper : Keeper (Ledger α) α).trace Session.start acts := by
  refine keeper_simulates.trace_eq Session.Matches.start fun a _ => ?_
  cases a <;> trivial

end Cache

end BlockTensor
