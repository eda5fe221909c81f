import BlockTensor.Pool.Basic
import BlockTensor.Proofs.Layout

/-!
# Loops that fill a buffer

`Fills n u P g` says that an update puts `g i` in each entry `i` of `P` of a
buffer of `n` entries, changes no other and does not fail. It does not matter in
what order such updates run (`fills_forM`), so a pool that fills the runs of a
buffer fills the buffer, whatever its number of workers and its schedule
(`Pool.updateChunks_eq`).
-/

namespace BlockTensor

variable {β ι : Type}

namespace Update

theorem forM_cons_ok {σ : Type} {u : ι → Update σ Unit} {x : ι} {xs : List ι} {s s' : σ}
    (h : u x s = .ok () s') : (x :: xs).forM u s = xs.forM u s' :=
  bind_ok (k := fun _ => xs.forM u) h

theorem forM_concat {σ : Type} {u : ι → Update σ Unit} (xs : List ι) (x : ι) :
    (xs ++ [x]).forM u = (xs.forM u >>= fun _ => u x) := by
  show forM (xs ++ [x]) u = (forM xs u >>= fun _ => u x)
  rw [List.forM_append, List.forM_cons, List.forM_nil]
  simp only [bind_pure_comp, id_map']

/-- `u` puts `g i` in each entry `i` of `P`. -/
def Fills (n : Nat) (u : Update (Array β) Unit) (P : Nat → Prop) (g : Nat → β) : Prop :=
  ∀ a : Array β, a.size = n → ∃ a' : Array β, u a = .ok () a' ∧ a'.size = n ∧
    ∀ i < n, (P i → a'[i]? = some (g i)) ∧ (¬P i → a'[i]? = a[i]?)

theorem fills_forM {n : Nat} {ts : List ι} {u : ι → Update (Array β) Unit} {P : ι → Nat → Prop}
    {g : Nat → β} (h : ∀ t ∈ ts, Fills n (u t) (P t) g) :
    Fills n (ts.forM u) (fun i => ∃ t ∈ ts, P t i) g := by
  induction ts with
  | nil => exact fun a ha => ⟨a, rfl, ha, fun i _ => ⟨nofun, fun _ => rfl⟩⟩
  | cons t ts ih =>
    intro a ha
    obtain ⟨b, hu, hb, hP⟩ := h t List.mem_cons_self a ha
    obtain ⟨c, hus, hc, hPs⟩ := ih (fun s hs => h s (List.mem_cons_of_mem _ hs)) b hb
    refine ⟨c, (forM_cons_ok hu).trans hus, hc, fun i hi => ⟨?_, fun hn => ?_⟩⟩
    · rintro ⟨s, hs, hsi⟩
      -- a later task may fill the entry again, with the same value
      by_cases hlater : ∃ s ∈ ts, P s i
      · exact (hPs i hi).1 hlater
      · rcases List.mem_cons.mp hs with rfl | hs
        · rw [(hPs i hi).2 hlater, (hP i hi).1 hsi]
        · exact absurd ⟨s, hs, hsi⟩ hlater
    · rw [(hPs i hi).2 fun ⟨s, hs, hsi⟩ => hn ⟨s, List.mem_cons_of_mem _ hs, hsi⟩,
        (hP i hi).2 fun ht => hn ⟨t, List.mem_cons_self, ht⟩]

/-- An update that fills every entry leaves nothing of the old ones. -/
theorem Fills.eq_ofFn {n : Nat} {u : Update (Array β) Unit} {P : Nat → Prop} {g : Nat → β}
    (h : Fills n u P g) (hP : ∀ i < n, P i) {a : Array β} (ha : a.size = n) :
    u a = .ok () (Array.ofFn fun i : Fin n => g i) := by
  obtain ⟨b, hu, hb, hg⟩ := h a ha
  rw [hu]
  congr 1
  apply Array.ext_getElem?
  intro i
  by_cases hi : i < n
  · rw [(hg i hi).1 (hP i hi), Array.getElem?_ofFn, dif_pos hi]
  · rw [Array.getElem?_eq_none (by omega), Array.getElem?_eq_none (by simp; omega)]

end Update

open Update

theorem chunk_pos (length parallelism : Nat) : 0 < (partition length parallelism).chunk := by
  unfold partition
  split
  · exact Nat.one_pos
  · split
    · rename_i s h
      obtain ⟨htwo, hle, -⟩ := greatestDivisor?_eq_some h
      exact Nat.div_pos (Nat.le_trans hle (Nat.min_le_right ..)) (by omega)
    · exact Nat.one_pos

namespace Pool

variable (p : Pool)

theorem updateChunk_fills {n chunk t : Nat} {f : Nat → Update (Array β) Unit} {g : Nat → β}
    (hchunk : 0 < chunk) (ht : t * chunk + chunk ≤ n)
    (hf : ∀ run : Array β, run.size = chunk →
      f (t * chunk) run = .ok () (Array.ofFn fun r : Fin chunk => g (t * chunk + r))) :
    Fills n (updateChunk chunk f t) (fun i => i / chunk = t) g := by
  intro a ha
  have hsize : (Buffer.chunk a chunk t).size = chunk := by
    rw [Buffer.size_chunk]
    omega
  refine ⟨_, by rw [updateChunk, hf _ hsize], by rw [Buffer.size_blit, ha], fun i hi => ?_⟩
  have hdiv := Nat.div_add_mod i chunk
  have hmod := Nat.mod_lt i hchunk
  rw [Nat.mul_comm] at hdiv
  rw [Buffer.getElem?_blit, Array.size_ofFn]
  refine ⟨?_, fun hn => ?_⟩
  · rintro rfl
    rw [if_pos ⟨by omega, by omega, by omega⟩, Array.getElem?_ofFn, dif_pos (by omega)]
    congr 2
    dsimp only
    omega
  · refine if_neg fun ⟨hlo, hhi, _⟩ => hn ?_
    rw [← Nat.succ_mul] at hhi
    exact Nat.div_eq_of_lt_le hlo hhi

theorem plan_tasks_mul_chunk (n : Nat) : (p.plan n).tasks * (p.plan n).chunk = n :=
  tasks_mul_chunk n p.threads

theorem mem_order {n t : Nat} : t ∈ p.order n ↔ t < (p.plan n).tasks :=
  (p.schedule.perm _).mem_iff.trans List.mem_range

/-- A task of a range ends within it. -/
theorem chunk_le {n t : Nat} (h : t < (p.plan n).tasks) :
    t * (p.plan n).chunk + (p.plan n).chunk ≤ n := by
  have h := Nat.mul_le_mul_right (p.plan n).chunk h
  rwa [plan_tasks_mul_chunk, Nat.succ_mul] at h

/-- Each element of a range belongs to a task. -/
theorem div_chunk_lt {n i : Nat} (h : i < n) : i / (p.plan n).chunk < (p.plan n).tasks := by
  refine Nat.div_lt_of_lt_mul ?_
  rwa [Nat.mul_comm, plan_tasks_mul_chunk]

/-- A pool that fills each run of a buffer fills the buffer. -/
theorem updateChunks_eq {n : Nat} {f : Nat → Update (Array β) Unit} {g : Nat → β}
    (hf : ∀ first len (run : Array β), run.size = len → first + len ≤ n →
      f first run = .ok () (Array.ofFn fun r : Fin len => g (first + r)))
    {a : Array β} (ha : a.size = n) :
    p.updateChunks f a = .ok () (Array.ofFn fun i : Fin n => g i) := by
  rw [updateChunks, ha]
  refine (fills_forM fun t ht => ?_).eq_ofFn (P := fun i =>
    ∃ t ∈ p.order n, i / (p.plan n).chunk = t) (fun i hi => ?_) ha
  · have hle := p.chunk_le (p.mem_order.mp ht)
    exact updateChunk_fills (chunk_pos ..) hle fun run hrun => hf _ _ run hrun hle
  · exact ⟨_, p.mem_order.mpr (p.div_chunk_lt hi), rfl⟩

end Pool

end BlockTensor
