import Mathlib.Algebra.GroupWithZero.Nat
import BlockTensor.Cache

/-!
# What a cache holds, in the order of release

A cache keeps its buffers in stacks and their stamps in a list. `Holds c log`
says that both describe one list of stamped entries, the buffers in the order of
their release: a stack is the entries with its key, the order is their stamps.
Every operation of the cache is an operation on that list:

* `Holds.reuse_some` takes the last entry with a key out of it, wherever it is;
* `Holds.drop_oldest` drops the first entry, and `Holds.makeRoom_eq` the first
  ones until there is room (`Entry.fitting`), never running out of entries;
* `Holds.release_owned` appends an entry, after making room.

`Stocked P c` says of all entries that they satisfy `P`. It stays so if what is
released satisfies `P` (`Stocked.release`), and then what is lent does
(`Stocked.get`).
-/

namespace BlockTensor

/-- A parked buffer, and what it may serve as. -/
structure Entry (α : Type) where
  key : CacheKey
  elems : Elements α

namespace Entry

variable {α : Type}

/-- The bytes of some entries. -/
def bytes (entries : List (Entry α)) : Nat := (entries.map fun e => e.elems.nbytes).sum

/-- The entries that are left when the first ones are dropped, one at a time,
while they and `size` more bytes exceed the capacity. -/
def fitting (capacity size : Nat) : List (Entry α) → List (Entry α)
  | [] => []
  | e :: es => if bytes (e :: es) + size ≤ capacity then e :: es else fitting capacity size es

theorem bytes_cons (e : Entry α) (es : List (Entry α)) :
    bytes (e :: es) = e.elems.nbytes + bytes es := List.sum_cons

theorem bytes_append (xs ys : List (Entry α)) : bytes (xs ++ ys) = bytes xs + bytes ys := by
  rw [bytes, List.map_append, List.sum_append, bytes, bytes]

/-- What is left fits, if the capacity is enough for what is to come. -/
theorem bytes_fitting {capacity size : Nat} (h : size ≤ capacity) (es : List (Entry α)) :
    bytes (fitting capacity size es) + size ≤ capacity := by
  induction es with
  | nil => simpa [fitting, bytes] using h
  | cons e es ih =>
    unfold fitting
    split
    · assumption
    · exact ih

end Entry

namespace Cache

variable {α : Type}

/-! ## Stacks -/

@[simp] theorem bucket_nil (key : CacheKey) :
    bucket ([] : List (CacheKey × List (Parked α))) key = [] := rfl

theorem bucket_cons (s : CacheKey × List (Parked α)) (idle : List (CacheKey × List (Parked α)))
    (key : CacheKey) : bucket (s :: idle) key = if s.1 = key then s.2 else bucket idle key := by
  by_cases h : s.1 = key <;> simp [bucket, h]

theorem bucket_eq_nil {idle : List (CacheKey × List (Parked α))} {key : CacheKey}
    (h : key ∉ idle.map Prod.fst) : bucket idle key = [] := by
  induction idle with
  | nil => rfl
  | cons s idle ih =>
    rw [List.map_cons, List.mem_cons, not_or] at h
    rw [bucket_cons, if_neg fun he => h.1 he.symm, ih h.2]

theorem bucket_of_mem {idle : List (CacheKey × List (Parked α))}
    (h : (idle.map Prod.fst).Nodup) {s : CacheKey × List (Parked α)} (hs : s ∈ idle) :
    bucket idle s.1 = s.2 := by
  induction idle with
  | nil => cases hs
  | cons t idle ih =>
    obtain ⟨hnot, h⟩ := List.nodup_cons.mp h
    rw [bucket_cons]
    rcases List.mem_cons.mp hs with rfl | hs
    · rw [if_pos rfl]
    · rw [if_neg, ih h hs]
      rintro he
      exact hnot (he ▸ List.mem_map_of_mem hs)

theorem bucket_others (idle : List (CacheKey × List (Parked α))) (key k : CacheKey) :
    bucket (idle.filter fun s => s.1 ≠ key) k = if k = key then [] else bucket idle k := by
  induction idle with
  | nil => simp
  | cons s idle ih =>
    rw [List.filter_cons]
    by_cases hs : s.1 = key
    · rw [if_neg (by simp [hs]), ih, bucket_cons, hs]
      by_cases hk : k = key
      · rw [if_pos hk, if_pos hk]
      · rw [if_neg hk, if_neg hk, if_neg (Ne.symm hk)]
    · rw [if_pos (by simp [hs]), bucket_cons, bucket_cons, ih]
      by_cases hk : k = key
      · rw [if_pos hk, if_pos hk, if_neg fun h => hs (h.trans hk)]
      · rw [if_neg hk, if_neg hk]

theorem bucket_append_of_notMem {idle : List (CacheKey × List (Parked α))} {key : CacheKey}
    (h : key ∉ idle.map Prod.fst) (stack : List (Parked α)) (k : CacheKey) :
    bucket (idle ++ [(key, stack)]) k = if k = key then stack else bucket idle k := by
  induction idle with
  | nil => simp [bucket_cons, eq_comm]
  | cons s idle ih =>
    rw [List.map_cons, List.mem_cons, not_or] at h
    rw [List.cons_append, bucket_cons, bucket_cons, ih h.2]
    by_cases hk : k = key
    · rw [if_pos hk, if_pos hk, if_neg fun he => h.1 (he.trans hk).symm]
    · rw [if_neg hk, if_neg hk]

theorem notMem_others (idle : List (CacheKey × List (Parked α))) (key : CacheKey) :
    key ∉ (idle.filter fun s => s.1 ≠ key).map Prod.fst := by
  simp

/-- A replaced stack is the new one, every other stack the old one. -/
theorem bucket_setBucket (idle : List (CacheKey × List (Parked α))) (key : CacheKey)
    (stack : List (Parked α)) (k : CacheKey) :
    bucket (setBucket idle key stack) k = if k = key then stack else bucket idle k := by
  unfold setBucket
  split
  · rename_i h
    rw [bucket_others, List.isEmpty_iff.mp h]
  · rw [bucket_append_of_notMem (notMem_others idle key), bucket_others]
    by_cases hk : k = key
    · rw [if_pos hk, if_pos hk]
    · rw [if_neg hk, if_neg hk, if_neg hk]

theorem nodup_setBucket {idle : List (CacheKey × List (Parked α))}
    (h : (idle.map Prod.fst).Nodup) (key : CacheKey) (stack : List (Parked α)) :
    ((setBucket idle key stack).map Prod.fst).Nodup := by
  have hothers : ((idle.filter fun s => s.1 ≠ key).map Prod.fst).Nodup :=
    (List.filter_sublist.map Prod.fst).nodup h
  unfold setBucket
  split
  · exact hothers
  · rw [List.map_append, List.nodup_append]
    refine ⟨hothers, by simp, fun k hk k' hk' he => ?_⟩
    obtain rfl := List.mem_singleton.mp hk'
    exact notMem_others idle _ (he ▸ hk)

theorem nonempty_setBucket {idle : List (CacheKey × List (Parked α))}
    (h : ∀ s ∈ idle, s.2 ≠ []) (key : CacheKey) (stack : List (Parked α)) :
    ∀ s ∈ setBucket idle key stack, s.2 ≠ [] := by
  intro s hs
  unfold setBucket at hs
  split at hs
  · exact h s ((List.mem_filter.mp hs).1)
  · rename_i hne
    rcases List.mem_append.mp hs with hs | hs
    · exact h s ((List.mem_filter.mp hs).1)
    · obtain rfl := List.mem_singleton.mp hs
      simpa using hne

/-! ## Lending -/

section

variable [Scalar α] {c c' : Cache α} {key : CacheKey} {elems : Elements α}

theorem exec_get_hit (h : c.reuse key = some (elems, c')) :
    (get key).exec c = (.ok ⟨.owning key.shape elems⟩, c') := by
  rw [Update.exec, get, h]

theorem exec_get_miss (h : c.reuse key = none) :
    (get key).exec c =
      (Loan.mk <$> Tensor.zeros key.dtype key.shape, { c with misses := c.misses + 1 }) := by
  rw [Update.exec, get, h]
  exact Update.exec_ofOutcome ..

end

/-! ## The log -/

/-- A parked entry and the stamp of its release. -/
structure Release (α : Type) extends Entry α where
  stamp : Nat

namespace Release

/-- What the stack of the key holds. -/
def parked (r : Release α) : Parked α := ⟨r.stamp, r.elems⟩

/-- What the order holds. -/
def mark (r : Release α) : Nat × CacheKey := (r.stamp, r.key)

/-- The entries of a log. -/
def entries (log : List (Release α)) : List (Entry α) := log.map toEntry

/-- The releases under one key. -/
def under (log : List (Release α)) (key : CacheKey) : List (Release α) :=
  log.filter fun r => r.key = key

theorem under_append (xs ys : List (Release α)) (key : CacheKey) :
    under (xs ++ ys) key = under xs key ++ under ys key := List.filter_append ..

theorem under_cons (r : Release α) (log : List (Release α)) (key : CacheKey) :
    under (r :: log) key = if r.key = key then r :: under log key else under log key := by
  simp [under, List.filter_cons]

theorem under_eq_nil {log : List (Release α)} {key : CacheKey} (h : ∀ r ∈ log, r.key ≠ key) :
    under log key = [] := by
  simpa [under] using h

/-- A log has no release under a key, or a last one. -/
theorem last_under (log : List (Release α)) (key : CacheKey) :
    (∀ r ∈ log, r.key ≠ key) ∨
      ∃ xs r ys, log = xs ++ r :: ys ∧ r.key = key ∧ ∀ y ∈ ys, y.key ≠ key := by
  induction log with
  | nil => exact .inl nofun
  | cons r log ih =>
    rcases ih with hnone | ⟨xs, s, ys, rfl, hs, hys⟩
    · by_cases hr : r.key = key
      · exact .inr ⟨[], r, log, rfl, hr, hnone⟩
      · exact .inl (List.forall_mem_cons.mpr ⟨hr, hnone⟩)
    · exact .inr ⟨r :: xs, s, ys, rfl, hs, hys⟩

end Release

open Release

/-- The stacks and the order of a cache are those of a log. -/
structure Holds (c : Cache α) (log : List (Release α)) : Prop where
  order : c.order = log.map mark
  stack : ∀ key, bucket c.idle key = (under log key).map parked
  keys : (c.idle.map Prod.fst).Nodup
  nonempty : ∀ s ∈ c.idle, s.2 ≠ []
  sorted : log.Pairwise (·.stamp < ·.stamp)
  below : ∀ r ∈ log, r.stamp < c.clock
  bytes : c.idleBytes = Entry.bytes (entries log)
  within : c.idleBytes ≤ c.capacity

theorem holds_clear (c : Cache α) : Holds c.clear [] where
  order := rfl
  stack _ := rfl
  keys := List.nodup_nil
  nonempty := nofun
  sorted := .nil
  below := nofun
  bytes := rfl
  within := Nat.zero_le _

theorem holds_empty (capacity : Nat) : Holds (empty capacity : Cache α) [] :=
  holds_clear (empty capacity)

namespace Holds

variable {c : Cache α} {log xs ys : List (Release α)} {r : Release α} {key : CacheKey}

/-- The other releases have other stamps. -/
theorem stamp_ne (h : Holds c (xs ++ r :: ys)) {x : Release α} (hx : x ∈ xs ++ ys) :
    x.stamp ≠ r.stamp := by
  obtain ⟨-, hr, hxs⟩ := List.pairwise_append.mp h.sorted
  obtain ⟨hys, -⟩ := List.pairwise_cons.mp hr
  rcases List.mem_append.mp hx with hx | hx
  · exact Nat.ne_of_lt (hxs x hx r List.mem_cons_self)
  · exact Nat.ne_of_gt (hys x hx)

/-- The bytes of a parked buffer are among those that the cache counts. -/
theorem bytes_remove (h : Holds c (xs ++ r :: ys)) :
    c.idleBytes = r.elems.nbytes + Entry.bytes (entries (xs ++ ys)) := by
  rw [h.bytes, entries, entries, List.map_append, List.map_append, List.map_cons,
    Entry.bytes_append, Entry.bytes_append, Entry.bytes_cons]
  omega

/-- A release goes out of the log when its buffer, its stamp and its bytes go out
of the cache. -/
theorem remove (h : Holds c (xs ++ r :: ys)) {c' : Cache α}
    (hidle : c'.idle = setBucket c.idle r.key ((under (xs ++ ys) r.key).map parked))
    (horder : c'.order = (xs ++ ys).map mark)
    (hbytes : c'.idleBytes = Entry.bytes (entries (xs ++ ys))) (hclock : c'.clock = c.clock)
    (hcap : c'.capacity = c.capacity) : Holds c' (xs ++ ys) where
  order := horder
  stack k := by
    rw [hidle, bucket_setBucket]
    split
    · rename_i hk
      rw [hk]
    · rename_i hk
      rw [h.stack, under_append, under_append, under_cons, if_neg (Ne.symm hk)]
  keys := hidle ▸ nodup_setBucket h.keys _ _
  nonempty := hidle ▸ nonempty_setBucket h.nonempty _ _
  sorted := h.sorted.sublist (List.sublist_cons_self r ys |>.append_left xs)
  below x hx := by
    rw [hclock]
    refine h.below x ?_
    rcases List.mem_append.mp hx with hx | hx
    · exact List.mem_append_left _ hx
    · exact List.mem_append_right _ (List.mem_cons_of_mem _ hx)
  bytes := hbytes
  within := by
    have hwithin := h.within
    rw [h.bytes_remove] at hwithin
    rw [hbytes, hcap]
    omega

/-- Each buffer is found in its stack by its stamp. -/
theorem find_stamp (h : Holds c (xs ++ r :: ys)) :
    (bucket c.idle r.key).find? (fun p => p.stamp = r.stamp) = some r.parked := by
  have hbefore : ((under xs r.key).map parked).find? (fun p => p.stamp = r.stamp) = none := by
    refine List.find?_eq_none.mpr fun p hp => ?_
    obtain ⟨x, hx, rfl⟩ := List.mem_map.mp hp
    have hx := List.mem_append_left ys (List.mem_filter.mp hx).1
    exact fun he => h.stamp_ne hx (of_decide_eq_true he)
  rw [h.stack, under_append, under_cons, if_pos rfl, List.map_append, List.map_cons,
    List.find?_append, hbefore, Option.none_or, List.find?_cons_of_pos]
  simp [parked]

/-- What a cache counts besides its bytes is not part of what it holds. -/
theorem miss (h : Holds c log) : Holds { c with misses := c.misses + 1 } log :=
  ⟨h.order, h.stack, h.keys, h.nonempty, h.sorted, h.below, h.bytes, h.within⟩

/-- Without a release under the key there is nothing to reuse. -/
theorem reuse_none (h : Holds c log) (hn : ∀ r ∈ log, r.key ≠ key) : c.reuse key = none := by
  rw [reuse, h.stack, under_eq_nil hn]
  rfl

/-- The buffer released last under a key is handed out, wherever it is in the
log. -/
theorem reuse_some (h : Holds c (xs ++ r :: ys)) (hn : ∀ x ∈ ys, x.key ≠ r.key) :
    ∃ c', c.reuse r.key = some (r.elems, c') ∧ Holds c' (xs ++ ys) ∧ c'.capacity = c.capacity ∧
      c'.stats = ⟨c.hits + 1, c.misses, c.evictions, Entry.bytes (entries (xs ++ ys))⟩ := by
  have hrest : under (xs ++ ys) r.key = under xs r.key := by
    rw [under_append, under_eq_nil hn, List.append_nil]
  have hstack : bucket c.idle r.key = (under (xs ++ ys) r.key).map parked ++ [r.parked] := by
    rw [h.stack, hrest, under_append, under_cons, if_pos rfl, under_eq_nil hn, List.map_append]
    rfl
  have horder : c.order.filter (fun o => o.1 ≠ r.stamp) = (xs ++ ys).map mark := by
    -- the order forgets the stamp of this release and no other
    have hkeep : ((xs ++ ys).map mark).filter (fun o => o.1 ≠ r.stamp) = (xs ++ ys).map mark := by
      refine List.filter_eq_self.mpr fun o ho => ?_
      obtain ⟨x, hx, rfl⟩ := List.mem_map.mp ho
      exact decide_eq_true (h.stamp_ne hx)
    rw [List.map_append, List.filter_append] at hkeep
    rw [h.order, List.map_append, List.map_cons, List.filter_append,
      List.filter_cons_of_neg (by simp [mark]), hkeep, List.map_append]
  have hbytes : c.idleBytes - r.elems.nbytes = Entry.bytes (entries (xs ++ ys)) := by
    rw [h.bytes_remove, Nat.add_sub_cancel_left]
  have hreuse : c.reuse r.key = some (r.elems,
      { c with
        idle := setBucket c.idle r.key ((under (xs ++ ys) r.key).map parked)
        order := (xs ++ ys).map mark
        hits := c.hits + 1
        idleBytes := c.idleBytes - r.elems.nbytes }) := by
    simp only [reuse, hstack, List.getLast?_concat, List.dropLast_concat, parked, horder]
  exact ⟨_, hreuse, h.remove rfl rfl hbytes rfl rfl, rfl, congrArg (CacheStats.mk _ _ _) hbytes⟩

/-! ## Making room -/

/-- Dropping the oldest buffer drops the first release. -/
theorem drop_oldest (h : Holds c (r :: log)) :
    Holds (drop { c with order := log.map mark } r.stamp r.key) log ∧
      (drop { c with order := log.map mark } r.stamp r.key).capacity = c.capacity ∧
      (drop { c with order := log.map mark } r.stamp r.key).stats =
        ⟨c.hits, c.misses, c.evictions + 1, Entry.bytes (entries log)⟩ := by
  have h₀ : Holds c ([] ++ r :: log) := h
  have hstack : (bucket c.idle r.key).eraseP (fun p => p.stamp = r.stamp) =
      (under log r.key).map parked := by
    rw [h.stack, under_cons, if_pos rfl, List.map_cons, List.eraseP_cons_of_pos]
    simp [parked]
  have hdrop : drop { c with order := log.map mark } r.stamp r.key =
      { c with
        order := log.map mark
        idle := setBucket c.idle r.key ((under log r.key).map parked)
        idleBytes := c.idleBytes - r.elems.nbytes
        evictions := c.evictions + 1 } := by
    simp only [drop, h₀.find_stamp, hstack, parked]
  have hbytes : c.idleBytes - r.elems.nbytes = Entry.bytes (entries log) := by
    rw [h₀.bytes_remove, Nat.add_sub_cancel_left, List.nil_append]
  rw [hdrop]
  exact ⟨h₀.remove rfl rfl hbytes rfl rfl, rfl, congrArg (CacheStats.mk _ _ _) hbytes⟩

/-- Each turn of the loop that makes room drops the first release, until there is
room; turns for every release are enough. -/
theorem makeRoomFrom_eq (h : Holds c log) (size turns : Nat) :
    ∃ dropped rest, log = dropped ++ rest ∧ Holds (c.makeRoomFrom size turns) rest ∧
      (c.makeRoomFrom size turns).capacity = c.capacity ∧
      (c.makeRoomFrom size turns).stats =
        ⟨c.hits, c.misses, c.evictions + dropped.length, Entry.bytes (entries rest)⟩ ∧
      (log.length ≤ turns → entries rest = Entry.fitting c.capacity size (entries log)) := by
  induction turns generalizing c log with
  | zero =>
    refine ⟨[], log, rfl, h, rfl, congrArg (CacheStats.mk _ _ _) h.bytes, fun hlen => ?_⟩
    obtain rfl := List.length_eq_zero_iff.mp (Nat.le_zero.mp hlen)
    rfl
  | succ turns ih =>
    cases log with
    | nil =>
      have hstop : c.makeRoomFrom size (turns + 1) = c := by
        rw [Cache.makeRoomFrom, h.order]
        exact ite_self c
      rw [hstop]
      exact ⟨[], [], rfl, h, rfl, congrArg (CacheStats.mk _ _ _) h.bytes, fun _ => rfl⟩
    | cons r log =>
      have hbytes : Entry.bytes (r.toEntry :: entries log) = c.idleBytes := h.bytes.symm
      by_cases hroom : c.idleBytes + size ≤ c.capacity
      · have hstop : c.makeRoomFrom size (turns + 1) = c := by
          rw [Cache.makeRoomFrom, if_pos hroom]
        rw [hstop]
        refine ⟨[], r :: log, rfl, h, rfl, congrArg (CacheStats.mk _ _ _) h.bytes, fun _ => ?_⟩
        rw [entries, List.map_cons, ← entries, Entry.fitting, if_pos (hbytes ▸ hroom)]
      · have hturn : c.makeRoomFrom size (turns + 1) =
            makeRoomFrom size turns (drop { c with order := log.map mark } r.stamp r.key) := by
          rw [Cache.makeRoomFrom, if_neg hroom, h.order]
          rfl
        obtain ⟨h₁, hcap₁, hstats₁⟩ := h.drop_oldest
        obtain ⟨hhits, hmisses, hevictions, -⟩ := CacheStats.mk.inj hstats₁
        obtain ⟨dropped, rest, rfl, h', hcap, hstats, hfit⟩ := ih h₁
        rw [hturn]
        refine ⟨r :: dropped, rest, rfl, h', hcap.trans hcap₁, ?_, fun hlen => ?_⟩
        · rw [hstats, hhits, hmisses, hevictions, List.length_cons, Nat.add_assoc, Nat.add_comm 1]
        · rw [hfit (Nat.le_of_succ_le_succ hlen), hcap₁, entries, entries, List.map_cons,
            ← entries, Entry.fitting, if_neg (hbytes ▸ hroom)]

/-- Room is made by dropping the first entries while there is too little of it. -/
theorem makeRoom_eq (h : Holds c log) (size : Nat) :
    ∃ dropped rest, log = dropped ++ rest ∧ Holds (c.makeRoom size) rest ∧
      (c.makeRoom size).capacity = c.capacity ∧
      (c.makeRoom size).stats =
        ⟨c.hits, c.misses, c.evictions + dropped.length, Entry.bytes (entries rest)⟩ ∧
      entries rest = Entry.fitting c.capacity size (entries log) := by
  have hlen : log.length ≤ c.order.length := Nat.le_of_eq (by rw [h.order, List.length_map])
  obtain ⟨dropped, rest, hlog, h', hcap, hstats, hfit⟩ := h.makeRoomFrom_eq size c.order.length
  exact ⟨dropped, rest, hlog, h', hcap, hstats, hfit hlen⟩

/-! ## Releasing -/

theorem stats_park (key : CacheKey) (elems : Elements α) : (c.park key elems).stats =
    ⟨c.hits, c.misses, c.evictions, c.idleBytes + elems.nbytes⟩ := rfl

/-- A parked buffer is the last release. -/
theorem park (h : Holds c log) (key : CacheKey) {elems : Elements α}
    (hroom : c.idleBytes + elems.nbytes ≤ c.capacity) :
    Holds (c.park key elems) (log ++ [⟨⟨key, elems⟩, c.clock⟩]) where
  order := by
    show c.order ++ _ = _
    rw [h.order, List.map_append]
    rfl
  stack k := by
    show bucket (setBucket c.idle key _) k = _
    rw [bucket_setBucket, under_append, List.map_append, ← h.stack k, under_cons]
    split
    · rename_i hk
      rw [hk, if_pos rfl]
      rfl
    · rename_i hk
      rw [if_neg (Ne.symm hk)]
      exact (List.append_nil _).symm
  keys := nodup_setBucket h.keys _ _
  nonempty := nonempty_setBucket h.nonempty _ _
  sorted := by
    refine List.pairwise_append.mpr ⟨h.sorted, List.pairwise_singleton _ _, fun r hr x hx => ?_⟩
    obtain rfl := List.mem_singleton.mp hx
    exact h.below r hr
  below := by
    intro r hr
    show r.stamp < c.clock + 1
    rcases List.mem_append.mp hr with hr | hr
    · exact Nat.lt_succ_of_lt (h.below r hr)
    · obtain rfl := List.mem_singleton.mp hr
      exact Nat.lt_succ_self _
  bytes := by
    show c.idleBytes + elems.nbytes = _
    rw [entries, List.map_append, Entry.bytes_append, ← entries, ← h.bytes]
    rfl
  within := hroom

end Holds

/-- A tensor that owns no elements is not parked. -/
theorem release_none (c : Cache α) {t : Tensor α} (ht : t.owned? = none) : c.release t = c := by
  rw [release, ht]

/-- Nor is a tensor that is larger than the cache. -/
theorem release_large {c : Cache α} {t : Tensor α} {elems : Elements α}
    (ht : t.owned? = some elems) (hsize : c.capacity < elems.nbytes) : c.release t = c := by
  rw [release, ht]
  exact if_pos hsize

theorem release_fits {c : Cache α} {t : Tensor α} {elems : Elements α}
    (ht : t.owned? = some elems) (hsize : elems.nbytes ≤ c.capacity) :
    c.release t = (c.makeRoom elems.nbytes).park ⟨t.dtype, t.shape⟩ elems := by
  rw [release, ht]
  exact if_neg (Nat.not_lt.mpr hsize)

/-- An owned tensor that fits the cache at all is appended to what is left when
there is room for it. -/
theorem Holds.release_owned {c : Cache α} {log : List (Release α)} (h : Holds c log) {t : Tensor α}
    {elems : Elements α}
    (ht : t.owned? = some elems) (hsize : elems.nbytes ≤ c.capacity) :
    ∃ dropped rest stamp, log = dropped ++ rest ∧
      Holds (c.release t) (rest ++ [⟨⟨⟨t.dtype, t.shape⟩, elems⟩, stamp⟩]) ∧
      (c.release t).capacity = c.capacity ∧
      (c.release t).stats = ⟨c.hits, c.misses, c.evictions + dropped.length,
        Entry.bytes (entries rest) + elems.nbytes⟩ ∧
      entries rest = Entry.fitting c.capacity elems.nbytes (entries log) := by
  obtain ⟨dropped, rest, hlog, h₁, hcap, hstats, hfit⟩ := h.makeRoom_eq elems.nbytes
  have hroom : (c.makeRoom elems.nbytes).idleBytes + elems.nbytes ≤
      (c.makeRoom elems.nbytes).capacity := by
    rw [h₁.bytes, hfit, hcap]
    exact Entry.bytes_fitting hsize _
  obtain ⟨hhits, hmisses, hevictions, hbytes⟩ := CacheStats.mk.inj hstats
  rw [release_fits ht hsize]
  refine ⟨dropped, rest, _, hlog, h₁.park _ hroom, hcap, ?_, hfit⟩
  rw [stats_park, hhits, hmisses, hevictions, hbytes]

/-! ## What all entries satisfy -/

/-- Every parked buffer satisfies `P` under its key. -/
def Stocked (P : CacheKey → Elements α → Prop) (c : Cache α) : Prop :=
  ∃ log, Holds c log ∧ ∀ r ∈ log, P r.key r.elems

/-- A tensor that is parked as one that satisfies `P`. -/
def Parks (P : CacheKey → Elements α → Prop) (t : Tensor α) : Prop :=
  ∀ elems, t.owned? = some elems → P ⟨t.dtype, t.shape⟩ elems

namespace Stocked

variable {P : CacheKey → Elements α → Prop} {c : Cache α}

theorem empty (capacity : Nat) : Stocked P (empty capacity) := ⟨[], holds_empty capacity, nofun⟩

theorem clear (c : Cache α) : Stocked P c.clear := ⟨[], holds_clear c, nofun⟩

theorem release (h : Stocked P c) {t : Tensor α} (ht : Parks P t) : Stocked P (c.release t) := by
  obtain ⟨log, hlog, hP⟩ := h
  cases howned : t.owned? with
  | none => exact ⟨log, by rwa [release_none c howned], hP⟩
  | some elems =>
    by_cases hsize : c.capacity < elems.nbytes
    · exact ⟨log, by rwa [release_large howned hsize], hP⟩
    · obtain ⟨dropped, rest, stamp, rfl, hlog', -⟩ :=
        hlog.release_owned howned (Nat.le_of_not_lt hsize)
      refine ⟨_, hlog', fun r hr => ?_⟩
      rcases List.mem_append.mp hr with hr | hr
      · exact hP r (List.mem_append_right _ hr)
      · obtain rfl := List.mem_singleton.mp hr
        exact ht elems howned

/-- A buffer that is handed out again satisfies what all entries do. -/
theorem reuse (h : Stocked P c) {key : CacheKey} {elems : Elements α} {c' : Cache α}
    (hreuse : c.reuse key = some (elems, c')) : P key elems ∧ Stocked P c' := by
  obtain ⟨log, hlog, hP⟩ := h
  rcases last_under log key with hnone | ⟨xs, r, ys, rfl, rfl, hys⟩
  · rw [hlog.reuse_none hnone] at hreuse
    cases hreuse
  · obtain ⟨c₁, hsome, hrest, -⟩ := hlog.reuse_some hys
    obtain ⟨rfl, rfl⟩ := Prod.mk.inj (Option.some.inj (hsome.symm.trans hreuse))
    refine ⟨hP r (by simp), _, hrest, fun s hs => hP s ?_⟩
    rcases List.mem_append.mp hs with hs | hs
    · exact List.mem_append_left _ hs
    · exact List.mem_append_right _ (List.mem_cons_of_mem _ hs)

/-- A tensor that is lent has contents that satisfy what all entries do, or is
zeros. -/
theorem get [Scalar α] (h : Stocked P c) (key : CacheKey) :
    Stocked P ((Cache.get key).exec c).2 ∧
      ∀ {l : Loan α}, ((Cache.get key).exec c).1 = .ok l →
        (∃ elems, P key elems ∧ l.tensor = .owning key.shape elems) ∨
          Tensor.zeros key.dtype key.shape = .ok l.tensor := by
  cases hreuse : c.reuse key with
  | some found =>
    obtain ⟨elems, c'⟩ := found
    obtain ⟨hP, h'⟩ := h.reuse hreuse
    rw [exec_get_hit hreuse]
    refine ⟨h', fun hl => .inl ⟨elems, hP, ?_⟩⟩
    rw [← Except.ok.inj hl]
  | none =>
    obtain ⟨log, hlog, hP⟩ := h
    rw [exec_get_miss hreuse]
    refine ⟨⟨log, hlog.miss, hP⟩, fun hl => .inr ?_⟩
    cases hzeros : (Tensor.zeros key.dtype key.shape : Outcome (Tensor α)) with
    | error f =>
      rw [hzeros] at hl
      cases hl
    | ok t =>
      rw [hzeros] at hl
      obtain rfl := Except.ok.inj hl
      rfl

end Stocked

end Cache

end BlockTensor
