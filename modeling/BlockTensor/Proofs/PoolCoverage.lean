import BlockTensor.Proofs.Attempt
import BlockTensor.Proofs.Block

/-!
# Pools cover a range once

A pool cuts a range into tasks of one length, which follow one another without a gap
(`flatMap_plan`), so whatever runs each task once meets each index once.

* `partition_largest`: there are as many tasks as the parallelism allows.
* `forRange_visits`, `forChunks_runs`, `mapChunks_toList`: loops and maps in any order of the
  tasks.
* `Attempt.updated`: what becomes of a buffer of which the runs are updated by tasks that may
  fail. No task meets what another has written.
* `covers_once`: all of it together, with the loops that may fail.
-/

namespace BlockTensor

open Outcome

variable {σ ι κ ε β : Type}

/-! ## Partitions -/

theorem greatestDivisor?_eq_none {n bound : Nat} (h : greatestDivisor? n bound = none) {s : Nat}
    (hs : 2 ≤ s) (hle : s ≤ bound) : n % s ≠ 0 := by
  induction bound using greatestDivisor?.induct n with
  | case1 | case2 => omega
  | case3 b hb =>
    rw [greatestDivisor?, if_pos hb] at h
    cases h
  | case4 b hb ih =>
    rw [greatestDivisor?, if_neg hb] at h
    rcases Nat.lt_or_eq_of_le hle with hlt | rfl
    · exact ih h (by omega)
    · exact hb

theorem le_of_greatestDivisor? {n bound s : Nat} (h : greatestDivisor? n bound = some s) {d : Nat}
    (hd : 2 ≤ d) (hle : d ≤ bound) (hdvd : n % d = 0) : d ≤ s := by
  induction bound using greatestDivisor?.induct n with
  | case1 | case2 => omega
  | case3 b hb =>
    rw [greatestDivisor?, if_pos hb] at h
    cases h
    exact hle
  | case4 b hb ih =>
    rw [greatestDivisor?, if_neg hb] at h
    rcases Nat.lt_or_eq_of_le hle with hlt | rfl
    · exact ih h (by omega)
    · exact absurd hdvd hb

/-- A range is cut into the greatest number of equal tasks from 2 up to the parallelism, or
into its elements if there is no such number. -/
structure Partition.Largest (q : Partition) (length parallelism : Nat) : Prop where
  covers : q.tasks * q.chunk = length
  greatest : ∀ d, 2 ≤ d → d ≤ min parallelism length → length % d = 0 →
    2 ≤ q.tasks ∧ q.tasks ≤ min parallelism length ∧ d ≤ q.tasks
  single : (∀ d, 2 ≤ d → d ≤ min parallelism length → length % d ≠ 0) →
    q.tasks = length ∧ q.chunk = 1

theorem partition_largest (length parallelism : Nat) :
    (partition length parallelism).Largest length parallelism := by
  refine ⟨tasks_mul_chunk length parallelism, fun d hd hle hdvd => ?_, fun hnone => ?_⟩
  · unfold partition
    split
    · omega
    · split
      · rename_i s hs
        obtain ⟨h2, hbound, -⟩ := greatestDivisor?_eq_some hs
        exact ⟨h2, hbound, le_of_greatestDivisor? hs hd hle hdvd⟩
      · exact absurd hdvd (greatestDivisor?_eq_none ‹_› hd hle)
  · unfold partition
    split
    · exact ⟨Eq.symm ‹_›, rfl⟩
    · split
      · rename_i s hs
        obtain ⟨h2, hbound, hdvd⟩ := greatestDivisor?_eq_some hs
        exact absurd hdvd (hnone s h2 hbound)
      · exact ⟨rfl, rfl⟩

/-- Runs of one length, one after the other. -/
theorem flatMap_runs (offset chunk n : Nat) :
    (List.range n).flatMap (fun t => List.range' (offset + t * chunk) chunk) =
      List.range' offset (n * chunk) := by
  induction n with
  | zero => simp
  | succ n ih =>
    rw [List.range_succ, List.flatMap_append, ih, List.flatMap_singleton, Nat.succ_mul,
      List.range'_append_1]

/-- The first runs of a buffer are its first entries. -/
theorem Buffer.flatMap_chunks (a : Array β) (len n : Nat) :
    (List.range n).flatMap (fun t => (chunk a len t).toList) = a.toList.take (n * len) := by
  induction n with
  | zero => simp
  | succ n ih =>
    rw [List.range_succ, List.flatMap_append, ih, List.flatMap_singleton, Nat.succ_mul,
      List.take_add, chunk, Array.toList_extract, List.extract_eq_drop_take', List.drop_take,
      Nat.add_sub_cancel_left]

namespace Pool

/-! ## Ranges -/

/-- Task `t` of a range: `f` at each index of its run. -/
def rangeTask (p : Pool) (start stop : Nat) (f : Nat → EStateM ε σ Unit) (t : Nat) :
    EStateM ε σ Unit :=
  let chunk := (p.plan (stop - start)).chunk
  (List.range' (start + t * chunk) chunk).forM f

theorem checkStarts_of_le (p : Pool) {offset length : Nat}
    (h : length ≠ 0 → offset + length ≤ Word.bound) : p.checkStarts offset length = .ok () := by
  unfold checkStarts
  split
  · rfl
  · have hchunk : 0 < (p.plan length).chunk := chunk_pos ..
    have hend := h ‹_›
    rw [Word.add_of_lt (by omega)]
    rfl

theorem forChunks_eq (p : Pool) {offset length : Nat}
    (h : length ≠ 0 → offset + length ≤ Word.bound) (f : Nat → Nat → Update σ Unit) :
    p.forChunks offset length f = (p.order length).forM fun t =>
      f (offset + t * (p.plan length).chunk) (p.plan length).chunk := by
  unfold forChunks
  rw [p.checkStarts_of_le h]
  rfl

theorem forRange_eq (p : Pool) {start stop : Nat} (h : stop < Word.bound)
    (f : Nat → Update σ Unit) :
    p.forRange start stop f = (p.order (stop - start)).forM (p.rangeTask start stop f) :=
  p.forChunks_eq (by omega) _

theorem order_perm (p : Pool) (n : Nat) : (p.order n).Perm (List.range (p.plan n).tasks) :=
  p.schedule.perm _

/-- The tasks of a range have each of its indices. -/
theorem flatMap_plan (p : Pool) (offset length : Nat) :
    ((List.range (p.plan length).tasks).flatMap fun t =>
      List.range' (offset + t * (p.plan length).chunk) (p.plan length).chunk) =
      List.range' offset length := by
  rw [flatMap_runs, plan_tasks_mul_chunk]

theorem forM_flatMap (f : κ → EStateM ε σ Unit) (g : ι → List κ) (ts : List ι) :
    (ts.forM fun t => (g t).forM f) = (ts.flatMap g).forM f := by
  induction ts with
  | nil => rfl
  | cons t ts ih =>
    rw [List.flatMap_cons]
    show (_ >>= fun _ => ts.forM fun t => (g t).forM f) = forM (g t ++ ts.flatMap g) f
    rw [List.forM_append, ih]
    rfl

/-- In whatever order the tasks are run, `f` is called once at each index of the range. -/
theorem forRange_visits (p : Pool) {start stop : Nat} (h : stop < Word.bound) :
    ∃ visits : List Nat, visits.Perm (List.range' start (stop - start)) ∧
      ∀ (σ : Type) (f : Nat → Update σ Unit), p.forRange start stop f = visits.forM f := by
  refine ⟨_, ?_, fun σ f => (p.forRange_eq h f).trans (forM_flatMap f _ _)⟩
  rw [← p.flatMap_plan]
  exact (p.order_perm _).flatMap_right _

/-- The runs that the tasks are given have each index of the range once. -/
theorem forChunks_runs (p : Pool) {offset length : Nat} (h : offset + length ≤ Word.bound) :
    ∃ runs : List (Nat × Nat),
      (runs.flatMap fun r => List.range' r.1 r.2).Perm (List.range' offset length) ∧
      ∀ (σ : Type) (f : Nat → Nat → Update σ Unit),
        p.forChunks offset length f = runs.forM fun r => f r.1 r.2 := by
  refine ⟨(p.order length).map fun t =>
    (offset + t * (p.plan length).chunk, (p.plan length).chunk), ?_, fun σ f => ?_⟩
  · rw [List.flatMap_map, ← p.flatMap_plan]
    exact (p.order_perm _).flatMap_right _
  · rw [p.forChunks_eq fun _ => h]
    show _ = forM (List.map _ _) _
    rw [List.forM_map]
    rfl

/-! ## Buffers -/

theorem updateChunk_eq_ended {chunk t : Nat} {f : Nat → EStateM ε (Array β) Unit}
    {a a' : Array β} {o : Option ε} (h : updateChunk chunk f t a = ended o a') :
    ∃ run, f (t * chunk) (Buffer.chunk a chunk t) = ended o run ∧
      a' = Buffer.blit a (t * chunk) run := by
  unfold updateChunk at h
  obtain ⟨o', run, hrun⟩ := exists_ended (f (t * chunk) (Buffer.chunk a chunk t))
  rw [hrun] at h
  cases o' with
  | none =>
    obtain ⟨rfl, rfl⟩ := ended_inj (o := none) h
    exact ⟨run, hrun, rfl⟩
  | some e =>
    obtain ⟨rfl, rfl⟩ := ended_inj (o := some e) h
    exact ⟨run, hrun, rfl⟩

/-- An update that leaves buffers as long as they are. -/
def KeepsSize (f : Nat → EStateM ε (Array β) Unit) : Prop :=
  ∀ first run o run', f first run = ended o run' → run'.size = run.size

/-- Each task that has been run was given its run of the buffer as it was at first, and what
it left is in its place. -/
structure Updated (chunk : Nat) (f : Nat → EStateM ε (Array β) Unit) (data : Array β)
    (calls : List (Nat × Option ε)) (data' : Array β) : Prop where
  size : data'.size = data.size
  run : ∀ t o, (t, o) ∈ calls →
    f (t * chunk) (Buffer.chunk data chunk t) = ended o (Buffer.chunk data' chunk t)
  other : ∀ t, t ∉ calls.map Prod.fst → Buffer.chunk data' chunk t = Buffer.chunk data chunk t

theorem Progress.updated {chunk : Nat} {f : Nat → EStateM ε (Array β) Unit} (hf : KeepsSize f)
    {data data' : Array β} {ts : List Nat} {calls : List (Nat × Option ε)} (hnodup : ts.Nodup)
    (hts : ∀ t ∈ ts, t * chunk + chunk ≤ data.size)
    (h : Progress (updateChunk chunk f) data ts calls data') :
    Updated chunk f data calls data' := by
  induction h with
  | start => exact ⟨rfl, nofun, fun t _ => rfl⟩
  | @run ts calls a a' t o h ho ih =>
    obtain ⟨hnew, hnodup⟩ := List.nodup_cons.mp hnodup
    obtain ⟨hle, hts⟩ := List.forall_mem_cons.mp hts
    have hdone := ih hnodup hts
    have hfresh : t ∉ calls.map Prod.fst := fun ht => hnew (h.sublist.subset ht)
    obtain ⟨run, hrun, rfl⟩ := updateChunk_eq_ended ho
    have hle' : t * chunk + chunk ≤ a.size := hdone.size ▸ hle
    have hsize : run.size = chunk := by
      rw [hf _ _ _ _ hrun, Buffer.size_chunk]
      omega
    have hothers (k : Nat) (hk : k ≠ t) :
        Buffer.chunk (Buffer.blit a (t * chunk) run) chunk k = Buffer.chunk a chunk k :=
      Buffer.chunk_blit_ne hsize hk
    refine ⟨(Buffer.size_blit ..).trans hdone.size, fun k o' hk => ?_, fun k hk => ?_⟩
    · rcases List.mem_cons.mp hk with heq | hk
      · obtain ⟨rfl, rfl⟩ := Prod.mk.inj heq
        rw [Buffer.chunk_blit_self hsize hle', ← hdone.other k hfresh, hrun]
      · have hne : k ≠ t := fun heq => hfresh (heq ▸ List.mem_map_of_mem hk)
        rw [hothers k hne]
        exact hdone.run k o' hk
    · obtain ⟨hne, hk⟩ := not_or.mp fun hor => hk (List.mem_cons.mpr hor)
      rw [hothers k hne]
      exact hdone.other k hk
  | drop h he ih =>
    exact ih (List.nodup_cons.mp hnodup).2 (List.forall_mem_cons.mp hts).2

theorem Attempt.updated (p : Pool) {f : Nat → EStateM ε (Array β) Unit} (hf : KeepsSize f)
    {data data' : Array β} {calls : List (Nat × Option ε)} {o : Option ε}
    (h : Attempt (updateChunk (p.plan data.size).chunk f)
      (List.range (p.plan data.size).tasks) data calls o data') :
    Updated (p.plan data.size).chunk f data calls data' := by
  obtain ⟨taken, hperm, hprogress⟩ := h.progress
  refine hprogress.updated hf (hperm.nodup_iff.mpr List.nodup_range) fun t ht => ?_
  exact p.chunk_le (List.mem_range.mp (hperm.mem_iff.mp ht))

/-- A pool that updates the runs of a buffer makes an attempt. -/
theorem updateChunks_attempt (p : Pool) (f : Nat → EStateM ε (Array β) Unit) (data : Array β) :
    ∃ calls o data', p.updateChunks f data = ended o data' ∧
      Attempt (updateChunk (p.plan data.size).chunk f) (List.range (p.plan data.size).tasks)
        data calls o data' :=
  attempt_forM _ (p.order_perm _) data

theorem forM_ended_none {u : ι → EStateM ε σ Unit} {k : σ → ι → σ}
    (h : ∀ t s, u t s = ended none (k s t)) (ts : List ι) (s : σ) :
    ts.forM u s = ended none (ts.foldl k s) := by
  induction ts generalizing s with
  | nil => rfl
  | cons t ts ih => rw [forM_cons_ended (h t s), List.foldl_cons, ← ih]

/-- Runs that are mapped in any order are mapped in place. -/
theorem mapChunks_toList (p : Pool) {f : Nat → Array β → Array β}
    (hf : ∀ first run, (f first run).size = run.size) (data : Array β) :
    (p.mapChunks data f).toList = (List.range (p.plan data.size).tasks).flatMap fun t =>
      let chunk := (p.plan data.size).chunk
      (f (t * chunk) (Buffer.chunk data chunk t)).toList := by
  let u : Nat → EStateM Fault (Array β) Unit := fun first run => .ok () (f first run)
  have hu : KeepsSize u := fun first run o run' h => by
    obtain ⟨-, rfl⟩ := ended_inj (o := none) h
    exact hf first run
  obtain ⟨calls, o, data', hrun, hattempt⟩ := p.updateChunks_attempt u data
  have hmap : p.updateChunks u data = ended none (p.mapChunks data f) :=
    forM_ended_none (fun t a => rfl) _ data
  obtain ⟨rfl, rfl⟩ := ended_inj (hmap.symm.trans hrun)
  have hdone := hattempt.updated p hu
  have hlist := Buffer.flatMap_chunks (p.mapChunks data f) (p.plan data.size).chunk
    (p.plan data.size).tasks
  rw [plan_tasks_mul_chunk, List.take_of_length_le (Nat.le_of_eq hdone.size)] at hlist
  rw [← hlist]
  refine List.flatMap_congr fun t ht => congrArg Array.toList ?_
  obtain ⟨⟨t', o⟩, hmem, rfl⟩ := List.mem_map.mp (hattempt.perm_of_ok.mem_iff.mpr ht)
  obtain ⟨rfl, h⟩ := ended_inj (o := none) (hdone.run t' o hmem)
  exact h.symm

/-! ## Coverage -/

/-- A range is cut into as many equal tasks as the parallelism allows, and whatever the number
of workers and the order in which the tasks are run:

* loops over the indices and over the runs of a range visit each index once;
* the runs of a buffer are one after the other all of it, each is mapped knowing where it
  starts, and what becomes of them is in their place;
* a loop that may fail calls the function at most once at each index, even where tasks go on
  after a failure. It succeeds only after calling it at every index, always with success, and
  otherwise returns the error of a call;
* so does an update of the runs of a buffer, and what a run was left as is in its place;
* loops and updates that stop at the first failure are of this kind. -/
theorem covers_once (p : Pool) :
    (∀ length parallelism, (partition length parallelism).Largest length parallelism) ∧
    (∀ start stop, stop < Word.bound →
      ∃ visits : List Nat, visits.Perm (List.range' start (stop - start)) ∧
        ∀ (σ : Type) (f : Nat → Update σ Unit), p.forRange start stop f = visits.forM f) ∧
    (∀ offset length, offset + length ≤ Word.bound →
      ∃ runs : List (Nat × Nat),
        (runs.flatMap fun r => List.range' r.1 r.2).Perm (List.range' offset length) ∧
        ∀ (σ : Type) (f : Nat → Nat → Update σ Unit),
          p.forChunks offset length f = runs.forM fun r => f r.1 r.2) ∧
    (∀ (β : Type) (data : Array β) (f : Nat → Array β → Array β),
      (∀ first run, (f first run).size = run.size) →
        let q := p.plan data.size
        data.toList =
          (List.range q.tasks).flatMap (fun t => (Buffer.chunk data q.chunk t).toList) ∧
        (p.mapChunks data f).toList = (List.range q.tasks).flatMap fun t =>
          (f (t * q.chunk) (Buffer.chunk data q.chunk t)).toList) ∧
    (∀ (σ ε : Type) (start stop : Nat) (f : Nat → EStateM ε σ Unit) (s s' : σ)
      (calls : List (Nat × Option ε)) (o : Option ε),
      Attempt (p.rangeTask start stop f) (List.range (p.plan (stop - start)).tasks) s calls o s' →
        ∃ visits, Attempt f (List.range' start (stop - start)) s visits o s' ∧
          CallsOnce (List.range' start (stop - start)) visits o) ∧
    (∀ (β ε : Type) (data data' : Array β) (f : Nat → EStateM ε (Array β) Unit)
      (calls : List (Nat × Option ε)) (o : Option ε), KeepsSize f →
        let q := p.plan data.size
        Attempt (updateChunk q.chunk f) (List.range q.tasks) data calls o data' →
          CallsOnce (List.range q.tasks) calls o ∧ Updated q.chunk f data calls data') ∧
    (∀ (σ : Type) (start stop : Nat) (f : Nat → Update σ Unit) (s : σ), stop < Word.bound →
      ∃ calls o s', p.forRange start stop f s = ended o s' ∧
        Attempt (p.rangeTask start stop f) (List.range (p.plan (stop - start)).tasks)
          s calls o s') ∧
    (∀ (β ε : Type) (data : Array β) (f : Nat → EStateM ε (Array β) Unit),
      let q := p.plan data.size
      ∃ calls o data', p.updateChunks f data = ended o data' ∧
        Attempt (updateChunk q.chunk f) (List.range q.tasks) data calls o data') := by
  refine ⟨partition_largest, fun start stop h => p.forRange_visits h,
    fun offset length h => p.forChunks_runs h, fun β data f hf => ⟨?_, p.mapChunks_toList hf data⟩,
    fun σ ε start stop f s s' calls o h => ?_, fun β ε data data' f calls o hf h =>
      ⟨h.callsOnce, h.updated p hf⟩, fun σ start stop f s h => ?_,
    fun β ε data f => p.updateChunks_attempt f data⟩
  · rw [Buffer.flatMap_chunks, plan_tasks_mul_chunk]
    exact (List.take_of_length_le (Nat.le_refl _)).symm
  · obtain ⟨visits, hvisits⟩ := h.flatMap fun t => rfl
    rw [flatMap_plan] at hvisits
    exact ⟨visits, hvisits, hvisits.callsOnce⟩
  · rw [p.forRange_eq h]
    exact attempt_forM _ (p.order_perm _) s

/-- Two workers, of which the second takes its task first. -/
def reversedPool : Pool := ⟨2, fun n => (List.range n).reverse, fun _ => List.reverse_perm _⟩

/-- A check that fails at index two. -/
def refuseTwo (i : Nat) : EStateM Nat Unit Unit := fun s => if i = 2 then .error i s else .ok () s

/-- An update that clears a run, and fails at the second one. -/
def clearFirst (first : Nat) : EStateM Nat (Array Nat) Unit := fun run =>
  ended (if first = 2 then some first else none) (.replicate run.size 0)

theorem clearFirst_keepsSize : KeepsSize clearFirst := by
  intro first run o run' h
  obtain ⟨-, rfl⟩ := ended_inj h
  exact Array.size_replicate

/-- The second of two tasks fails, and the first one is dropped. -/
theorem reversed_range : Attempt (reversedPool.rangeTask 0 4 refuseTwo) (List.range 2) ()
    [(1, some 2)] (some 2) () where
  progress := ⟨[0, 1], .refl _, .drop (.run .start rfl) List.mem_cons_self⟩
  returned := ⟨1, List.mem_cons_self⟩

/-- The second of two tasks fails, and the first one is run all the same. -/
theorem reversed_update : Attempt (updateChunk 2 clearFirst) (List.range 2) #[1, 2, 3, 4]
    [(0, none), (1, some 2)] (some 2) #[0, 0, 0, 0] where
  progress := by
    have h : Progress (updateChunk 2 clearFirst) #[1, 2, 3, 4] [1] [(1, some 2)] #[1, 2, 0, 0] :=
      .run .start rfl
    exact ⟨[0, 1], .refl _, .run h rfl⟩
  returned := ⟨1, List.mem_cons_of_mem _ List.mem_cons_self⟩

theorem covers_once_reversed :
    (4 < Word.bound ∧ (∃ visits : List Nat, visits.Perm [0, 1, 2, 3] ∧
      ∀ (σ : Type) (f : Nat → Update σ Unit), reversedPool.forRange 0 4 f = visits.forM f) ∧
      ∃ calls o s',
        reversedPool.forRange 0 4 (fun _ => (pure () : Update Unit Unit)) () = ended o s' ∧
        Attempt (reversedPool.rangeTask 0 4 fun _ => pure ()) (List.range 2) () calls o s') ∧
    (0 + 4 ≤ Word.bound ∧ ∃ runs : List (Nat × Nat),
      (runs.flatMap fun r => List.range' r.1 r.2).Perm [0, 1, 2, 3] ∧
      ∀ (σ : Type) (f : Nat → Nat → Update σ Unit),
        reversedPool.forChunks 0 4 f = runs.forM fun r => f r.1 r.2) ∧
    ((∀ (first : Nat) (run : Array Nat), (Array.replicate run.size first).size = run.size) ∧
      (reversedPool.mapChunks #[1, 2, 3, 4] fun first run => .replicate run.size first).toList =
        [0, 0, 2, 2]) ∧
    (∃ visits, Attempt refuseTwo [0, 1, 2, 3] () visits (some 2) () ∧
      CallsOnce [0, 1, 2, 3] visits (some 2)) ∧
    (KeepsSize clearFirst ∧ CallsOnce [0, 1] [(0, none), (1, some 2)] (some 2) ∧
      Updated 2 clearFirst #[1, 2, 3, 4] [(0, none), (1, some 2)] #[0, 0, 0, 0]) := by
  obtain ⟨-, hrange, hchunks, hmap, htry, hupdate, hloop, -⟩ := covers_once reversedPool
  refine ⟨⟨by decide, hrange 0 4 (by decide), hloop Unit 0 4 _ () (by decide)⟩,
    ⟨by decide, hchunks 0 4 (by decide)⟩, ⟨fun first run => Array.size_replicate, ?_⟩,
    htry Unit Nat 0 4 refuseTwo () () _ _ reversed_range, ⟨clearFirst_keepsSize, ?_⟩⟩
  · obtain ⟨-, hdata⟩ := hmap Nat #[1, 2, 3, 4] (fun first run => .replicate run.size first)
      fun first run => Array.size_replicate
    exact hdata.trans (by decide)
  · exact hupdate Nat Nat #[1, 2, 3, 4] #[0, 0, 0, 0] clearFirst _ _ clearFirst_keepsSize
      reversed_update

end Pool

end BlockTensor
