import BlockTensor.Float.Binary32
import BlockTensor.Proofs.Allocation
import BlockTensor.Proofs.CacheLedger

/-!
# What is always true of a cache

`Cache.Sound` relates the stacks, the order, the clock and the running total of a
cache, and `Cache.Solvent` says that its operations stay within them: a buffer
that is taken out was counted, and the loop that makes room has room before it
has run out of buffers, whichever turn it is at. `sessions_sound` is that every
cache is sound and solvent at every point of a session, if the tensors that are
given to it hold the blocks of their shapes, as those that are lent do.

The invariant of the proof is `Stocked`: the cache is one list of releases, and
each of them fits its key.
-/

namespace BlockTensor

variable {α : Type}

/-- Elements in the encoding of a key, and just the blocks of its shape. -/
def CacheKey.Fits (key : CacheKey) (e : Elements α) : Prop :=
  e.dtype = key.dtype ∧ e.size = key.dtype.blocksFor key.shape.size * key.dtype.blockSize

namespace Cache

open Release

/-- Every parked buffer, with the key of its stack. -/
def buffers (idle : List (CacheKey × List (Parked α))) : List (CacheKey × Parked α) :=
  idle.flatMap fun s => s.2.map fun p => (s.1, p)

/-- The parts of a cache describe the same buffers. -/
structure Sound (c : Cache α) : Prop where
  /-- The order has the stamp of every buffer and no other, with its key. -/
  marks : ((buffers c.idle).map fun q => (q.2.stamp, q.1)).Perm c.order
  once : (c.order.map Prod.fst).Nodup
  oldestFirst : c.order.Pairwise (·.1 < ·.1)
  below : ∀ o ∈ c.order, o.1 < c.clock
  keys : (c.idle.map Prod.fst).Nodup
  nonempty : ∀ s ∈ c.idle, s.2 ≠ []
  increasing : ∀ s ∈ c.idle, s.2.Pairwise (·.stamp < ·.stamp)
  fits : ∀ q ∈ buffers c.idle, q.1.Fits q.2.elems
  total : c.idleBytes = ((buffers c.idle).map fun q => q.2.elems.nbytes).sum
  within : c.idleBytes ≤ c.capacity

/-- There is room for `size` more bytes, or an oldest buffer, counted in the
total. -/
def MayGoOn (c : Cache α) (size : Nat) : Prop :=
  c.idleBytes + size ≤ c.capacity ∨
    ∃ stamp key rest p, c.order = (stamp, key) :: rest ∧
      (bucket c.idle key).find? (fun p => p.stamp = stamp) = some p ∧
      p.elems.nbytes ≤ c.idleBytes

/-- No operation takes more out of a cache than there is in it. -/
structure Solvent (c : Cache α) : Prop where
  reuse : ∀ {key p}, (bucket c.idle key).getLast? = some p → p.elems.nbytes ≤ c.idleBytes
  /-- So it is after every turn of the loop that makes room. -/
  turn : ∀ {size}, size ≤ c.capacity → ∀ turns,
    (c.makeRoomFrom size turns).Sound ∧ (c.makeRoomFrom size turns).MayGoOn size
  room : ∀ {size}, size ≤ c.capacity → (c.makeRoom size).idleBytes + size ≤ c.capacity

/-! ## Stacks of one log -/

theorem under_others {log : List (Release α)} {key k : CacheKey} (hk : k ≠ key) :
    under (log.filter fun r => r.key ≠ key) k = under log k := by
  rw [under, List.filter_filter, under]
  refine List.filter_congr fun r _ => ?_
  by_cases hr : r.key = k <;> simp [hr, hk]

/-- Stacks of a log hold its releases, each under its key. -/
theorem buffers_perm {idle : List (CacheKey × List (Parked α))} {log : List (Release α)}
    (hkeys : (idle.map Prod.fst).Nodup)
    (hstack : ∀ key, bucket idle key = (under log key).map parked) :
    (buffers idle).Perm (log.map fun r => (r.key, r.parked)) := by
  induction idle generalizing log with
  | nil =>
    have hlog : log = [] := by
      refine List.eq_nil_iff_forall_not_mem.mpr fun r hr => ?_
      have hempty := hstack r.key
      rw [bucket_nil] at hempty
      have hr : r ∈ under log r.key := List.mem_filter.mpr ⟨hr, decide_eq_true rfl⟩
      rw [List.map_eq_nil_iff.mp hempty.symm] at hr
      cases hr
    rw [hlog]
    exact .refl _
  | cons s idle ih =>
    obtain ⟨hnot, hkeys⟩ := List.nodup_cons.mp hkeys
    have hfirst : s.2 = (under log s.1).map parked := by
      rw [← hstack, bucket_cons, if_pos rfl]
    have hrest : ∀ key, bucket idle key =
        (under (log.filter fun r => r.key ≠ s.1) key).map parked := by
      intro key
      by_cases hk : key = s.1
      · rw [hk, bucket_eq_nil hnot, under_eq_nil]
        · rfl
        · simp
      · rw [under_others hk, ← hstack, bucket_cons, if_neg (Ne.symm hk)]
    have hmap : s.2.map (fun p => (s.1, p)) =
        (under log s.1).map fun r => (r.key, r.parked) := by
      rw [hfirst, List.map_map]
      refine List.map_congr_left fun r hr => ?_
      rw [Function.comp_apply, of_decide_eq_true (List.mem_filter.mp hr).2]
    have hsplit := (List.filter_append_perm (fun r : Release α => r.key = s.1) log).map
      fun r => (r.key, r.parked)
    rw [List.map_append] at hsplit
    rw [buffers, List.flatMap_cons, hmap]
    refine .trans (.append_left _ ?_) hsplit
    simpa [buffers] using ih hkeys hrest

namespace Holds

variable {c : Cache α} {log : List (Release α)}

theorem buffers_perm (h : Holds c log) :
    (buffers c.idle).Perm (log.map fun r => (r.key, r.parked)) :=
  Cache.buffers_perm h.keys h.stack

theorem sound (h : Holds c log) (hfits : ∀ r ∈ log, r.key.Fits r.elems) : c.Sound where
  marks := by
    have hmarks := h.buffers_perm.map fun q => (q.2.stamp, q.1)
    rw [List.map_map] at hmarks
    rw [h.order]
    exact hmarks
  once := by
    rw [h.order, List.map_map]
    refine List.Pairwise.imp Nat.ne_of_lt ?_
    exact List.pairwise_map.mpr h.sorted
  oldestFirst := by
    rw [h.order]
    exact List.pairwise_map.mpr h.sorted
  below := by
    intro o ho
    rw [h.order] at ho
    obtain ⟨r, hr, rfl⟩ := List.mem_map.mp ho
    exact h.below r hr
  keys := h.keys
  nonempty := h.nonempty
  increasing := by
    intro s hs
    rw [← bucket_of_mem h.keys hs, h.stack]
    exact List.pairwise_map.mpr (h.sorted.filter _)
  fits := by
    intro q hq
    obtain ⟨r, hr, rfl⟩ := List.mem_map.mp (h.buffers_perm.subset hq)
    exact hfits r hr
  total := by
    rw [h.bytes, (h.buffers_perm.map fun q => q.2.elems.nbytes).sum_nat, List.map_map, Entry.bytes,
      entries, List.map_map]
    rfl
  within := h.within

/-- A parked buffer is counted in the total. -/
theorem nbytes_le (h : Holds c log) {key : CacheKey} {p : Parked α} (hp : p ∈ bucket c.idle key) :
    p.elems.nbytes ≤ c.idleBytes := by
  rw [h.stack] at hp
  obtain ⟨r, hr, rfl⟩ := List.mem_map.mp hp
  obtain ⟨xs, ys, rfl⟩ := List.append_of_mem (List.mem_filter.mp hr).1
  rw [h.bytes_remove]
  exact Nat.le_add_right ..

theorem mayGoOn (h : Holds c log) {size : Nat} (hsize : size ≤ c.capacity) : c.MayGoOn size := by
  cases log with
  | nil =>
    have hbytes : c.idleBytes = 0 := h.bytes
    exact .inl (by rwa [hbytes, Nat.zero_add])
  | cons r log =>
    have h₀ : Holds c ([] ++ r :: log) := h
    have hfind := h₀.find_stamp
    exact .inr ⟨r.stamp, r.key, log.map mark, r.parked, h.order, hfind,
      h.nbytes_le (List.mem_of_find?_eq_some hfind)⟩

theorem solvent (h : Holds c log) (hfits : ∀ r ∈ log, r.key.Fits r.elems) : c.Solvent where
  reuse hp := h.nbytes_le (List.mem_of_getLast? hp)
  turn {size} hsize turns := by
    obtain ⟨dropped, rest, rfl, h', hcap, -⟩ := h.makeRoomFrom_eq size turns
    exact ⟨h'.sound fun r hr => hfits r (List.mem_append_right _ hr), h'.mayGoOn (hcap ▸ hsize)⟩
  room {size} hsize := by
    obtain ⟨dropped, rest, -, h', -, -, hfit⟩ := h.makeRoom_eq size
    rw [h'.bytes, hfit]
    exact Entry.bytes_fitting hsize _

end Holds

/-! ## Sessions -/

section

variable [Scalar α]

theorem parks_of_filled {t : Tensor α} (h : t.Filled) : Parks CacheKey.Fits t := by
  obtain ⟨shape, storage⟩ := t
  cases storage with
  | owned e =>
    intro elems he
    obtain rfl := Option.some.inj he
    exact ⟨rfl, h⟩
  | _ => exact nofun

theorem filled_of_fits {key : CacheKey} {e : Elements α} (h : key.Fits e) :
    (Tensor.owning key.shape e).Filled := by
  show e.size = e.dtype.blocksFor key.shape.size * e.dtype.blockSize
  rw [h.1, h.2]

/-- A cache whose buffers fit their keys lends filled tensors, and if it is given
no others its buffers go on fitting their keys. -/
theorem keeper_stocked :
    Simulates (keeper : Keeper (Cache α) α) keeper
      (fun c c' => c = c' ∧ Stocked CacheKey.Fits c) Tensor.Filled where
  make capacity := ⟨rfl, Stocked.empty capacity⟩
  get := by
    rintro c _ ⟨rfl, hc⟩ key
    exact ⟨rfl, rfl, (hc.get key).1⟩
  lends := by
    rintro c _ ⟨rfl, hc⟩ key l hl
    rcases (hc.get key).2 hl with ⟨elems, hfits, htensor⟩ | hzeros
    · rw [htensor]
      exact filled_of_fits hfits
    · exact (Tensor.zeros_allocated hzeros).filled
  release := by
    rintro c _ ⟨rfl, hc⟩ t ht
    exact ⟨rfl, hc.release (parks_of_filled ht)⟩
  giveBack := by
    rintro c _ ⟨rfl, hc⟩ l hl
    exact ⟨rfl, hc.release (parks_of_filled hl)⟩
  clear := by
    rintro c _ ⟨rfl, -⟩
    exact ⟨rfl, Stocked.clear c⟩
  stats := by
    rintro c _ ⟨rfl, -⟩
    rfl
  contents := by
    rintro c _ ⟨rfl, -⟩
    rfl

/-- At every point of a session, every cache is sound and solvent. -/
theorem sessions_sound (acts : List (Act α)) (h : ∀ a ∈ acts, a.Brings Tensor.Filled) :
    ∀ c ∈ ((keeper : Keeper (Cache α) α).run Session.start acts).keepers, c.Sound ∧ c.Solvent := by
  intro c hc
  have hkeepers := (keeper_stocked.run Session.Matches.start h).keepers
  obtain ⟨-, log, hlog, hfits⟩ := List.forall₂_same.mp hkeepers c hc
  exact ⟨hlog.sound hfits, hlog.solvent hfits⟩

end

/-- The shape of a list. -/
def listShape (n : Nat) (h : 0 < n) : Shape := ⟨[n], by simp, by simpa⟩

/-- Two full-precision numbers, in half the bytes that the cache below has room for. -/
def halfBudget : Tensor Binary32 := .owning (listShape 2 Nat.two_pos) (.f32 #[⟨1⟩, ⟨2⟩])

/-- A cache with room for two such tensors is given three, through two handles, and one
of them is lent and given back. -/
def evictingActs : List (Act Binary32) :=
  [.make 16, .clone 0, .release 1 halfBudget, .release 0 halfBudget, .release 1 halfBudget,
    .get 1 ⟨.f32, halfBudget.shape⟩, .giveBack 0]

theorem sessions_sound_evicting :
    (∀ a ∈ evictingActs, a.Brings Tensor.Filled) ∧
      ∃ c ∈ (keeper.run Session.start evictingActs).keepers, c.stats = ⟨1, 0, 1, 16⟩ ∧
        c.Sound ∧ c.Solvent := by
  have hfilled : ∀ a ∈ evictingActs, a.Brings Tensor.Filled := by
    simp [evictingActs, Act.Brings, show halfBudget.Filled from rfl]
  refine ⟨hfilled, _, List.mem_singleton_self _, rfl, ?_⟩
  exact sessions_sound evictingActs hfilled _ (List.mem_singleton_self _)

end Cache

end BlockTensor
