import BlockTensor.Buffer
import BlockTensor.Pool.Partition

/-!
# The execution pool

A pool runs the tasks of a partition, each once, in an order that its workers
settle between them. The order is the pool's `Schedule`, a permutation of the
tasks; a law about pools holds for every one.

* `Pool.start` starts the workers of a pool. The `Host` says how many processors
  there are, and may refuse to start them.
* `Pool.forChunks` runs a task on each run of a range, `Pool.forRange` on each
  index.
* `Pool.mapChunks` and `Pool.updateChunks` hand each task its run of a buffer and
  put the result in its place. A failing task ends the whole call.
-/

namespace BlockTensor

/-- The order in which any number of tasks is run. -/
structure Schedule where
  order : Nat → List Nat
  perm : ∀ n, (order n).Perm (List.range n)

/-- The first task first. -/
def Schedule.ascending : Schedule := ⟨List.range, fun _ => .refl _⟩

/-- What the machine has and grants where a pool is started. -/
structure Host where
  /-- How many processors there are, if that is known. -/
  processors : Option Nat
  /-- Start a number of workers, or say why that fails. -/
  spawn : Nat → Except String Schedule

/-- A pool of workers. -/
structure Pool where
  threads : Nat
  schedule : Schedule

namespace Pool

/-- A pool of `threads` workers, of `default` where none is asked for. -/
def ofThreads (default threads : Nat) : Pool :=
  ⟨if threads = 0 then default else threads, .ascending⟩

/-- Workers where none are asked for: half as many as there are processors, but
at least two, and no more than there are processors. -/
def defaultThreads (processors : Option Nat) : Nat :=
  let logical := processors.getD 1
  min (max (logical / 2) 2) logical

/-- A pool whose workers are started, of the default number where none are asked
for. -/
def start (host : Host) (threads : Nat) : Outcome Pool :=
  let p := ofThreads (defaultThreads host.processors) threads
  match host.spawn p.threads with
  | .ok schedule => .ok { p with schedule }
  | .error why => .fail (.poolBuild (.text why))

variable (p : Pool)

/-- The partition of a range of `length` elements. -/
def plan (length : Nat) : Partition := partition length p.threads

/-- The tasks of a range, in the order in which they run. -/
def order (length : Nat) : List Nat := p.schedule.order (p.plan length).tasks

section

variable {m : Type → Type} [Monad m] [MonadLiftT Outcome m]

/-- The runs of the `length` elements from `offset` on start at machine words. -/
def checkStarts (offset length : Nat) : Outcome Unit :=
  if length = 0 then .ok ()
  else do
    let _ ← Word.add offset (length - (p.plan length).chunk)
    return ()

/-- `f first len` for each run of the `length` elements from `offset` on. -/
def forChunks (offset length : Nat) (f : Nat → Nat → m Unit) : m Unit := do
  liftM (p.checkStarts offset length)
  (p.order length).forM fun t => f (offset + t * (p.plan length).chunk) (p.plan length).chunk

/-- `f i` for each `i` from `start` up to `stop`. -/
def forRange (start stop : Nat) (f : Nat → m Unit) : m Unit :=
  p.forChunks start (stop - start) fun first len => (List.range' first len).forM f

end

variable {β ε : Type}

/-- A buffer with `f first run` in place of each of its runs. -/
def mapChunks (data : Array β) (f : Nat → Array β → Array β) : Array β :=
  let chunk := (p.plan data.size).chunk
  (p.order data.size).foldl
    (fun a t => Buffer.blit a (t * chunk) (f (t * chunk) (Buffer.chunk a chunk t))) data

/-- Update run `t` of a buffer. -/
def updateChunk (chunk : Nat) (f : Nat → EStateM ε (Array β) Unit) (t : Nat) :
    EStateM ε (Array β) Unit := fun a =>
  match f (t * chunk) (Buffer.chunk a chunk t) with
  | .ok v run => .ok v (Buffer.blit a (t * chunk) run)
  | .error e run => .error e (Buffer.blit a (t * chunk) run)

/-- Update each run of a buffer by `f first`. -/
def updateChunks (f : Nat → EStateM ε (Array β) Unit) : EStateM ε (Array β) Unit := fun a =>
  (p.order a.size).forM (updateChunk (p.plan a.size).chunk f) a

end Pool

end BlockTensor
