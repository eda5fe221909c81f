import BlockTensor.Pool.Basic

/-!
# The process-wide pool

One pool serves the whole process. Its size may be set once, before the pool is
first used; the first use starts it, and every later use gets the same pool.

* `GlobalPool.configure` sets the size, and reports a second setting and one
  that comes too late.
* `GlobalPool.acquire` gets the pool, starting it if need be; where a pool cannot
  be built, the state stays as it was and a later use tries again.
-/

namespace BlockTensor

/-- A pool, and which of the pools built so far it is. -/
structure PoolHandle where
  serial : Nat
  pool : Pool

/-- Pool number `serial`, started with `threads` workers. -/
def PoolHandle.start (host : Host) (serial threads : Nat) : Outcome PoolHandle :=
  return ⟨serial, ← Pool.start host threads⟩

/-- The state of the process-wide pool. -/
inductive GlobalPool
  /-- Not started; the size is set or still open. -/
  | pending (threads : Option Nat)
  | started (handle : PoolHandle)

namespace GlobalPool

/-- Nothing has happened yet. -/
def initial : GlobalPool := pending none

/-- Set the size of the pool. -/
def configure (threads : Nat) : Update GlobalPool Unit := fun
  | started h => .error (.error .poolAlreadyStarted) (started h)
  | pending (some n) => .error (.error (.invalidConfig (.poolConfigured n))) (pending (some n))
  | pending none => .ok () (pending (some threads))

/-- The pool, built from its size on first use; zero leaves the size to
`build`. -/
def acquire (build : Nat → Outcome PoolHandle) : Update GlobalPool PoolHandle := fun
  | started h => .ok h (started h)
  | pending threads =>
    match build (threads.getD 0) with
    | .ok h => .ok h (started h)
    | .error f => .error f (pending threads)

end GlobalPool

end BlockTensor
