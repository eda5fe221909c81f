import BlockTensor.Backend.Basic
import BlockTensor.Config
import BlockTensor.Machine

/-!
# Choosing a backend

* `Backend.select` takes the best tier that the settings, the machine and the
  kernel library allow; it always finds one.
* `Engine.choose` is the choice of a whole process. Its settings come from the
  variables; they size the process-wide pool, unless that has its size, and the
  backend works on this pool.
* `Once` is the one-time choice that callers share. A caller reads the cell,
  takes the lock, reads the cell again, makes its choice, stores it and releases
  the lock; these are its atomic steps, and callers may take theirs in any
  order. A choice that fails leaves the cell empty.
-/

namespace BlockTensor

namespace Backend

variable {α : Type}

/-- The vectorized tier, or the reference where there is no vector unit. -/
def vectorTier (m : Machine) (pool : Pool) : Backend α :=
  if m.hasVectors then vector pool else reference

/-- The native tier over a loaded library. -/
def loadNative (library : Library α) (m : Machine) (pool : Pool) : Outcome (Native α) := do
  return ⟨← library.load, m.nativeFlags, pool⟩

/-- The best tier that is asked for and available. -/
def select (preference : Preference) (library : Library α) (m : Machine) (pool : Pool) :
    Backend α :=
  match preference with
  | .reference => reference
  | .simd => vectorTier m pool
  | .auto | .native =>
    match loadNative library m pool with
    | .ok n => native n
    | .error _ => vectorTier m pool

end Backend

/-- What a process has to choose its backend from. -/
structure Engine (α : Type) where
  /-- The value of a variable, if it is set. -/
  lookup : String → Option String
  machine : Machine
  host : Host
  /-- The kernel library at a path, or the one that is found where none is given. -/
  library : Option String → Library α

namespace Engine

variable {α : Type} (g : Engine α)

/-- The settings, which also size the process-wide pool. A pool that has its size
keeps it. -/
def settle : Update GlobalPool EngineConfig := do
  let c ← EngineConfig.ofLookup g.lookup
  c.apply.tolerate
  return c

/-- The best tier for the settings, on a pool. -/
def backend (c : EngineConfig) (pool : Pool) : Backend α :=
  Backend.select c.backend (g.library c.nativeLibrary) g.machine pool

/-- The backend for the settings, on the process-wide pool. A pool that is started
for it is number `serial`. -/
def serve (c : EngineConfig) (serial : Nat) : Update GlobalPool (Backend α) := do
  let h ← GlobalPool.acquire (PoolHandle.start g.host serial)
  return g.backend c h.pool

/-- The choice of a process. -/
def choose (serial : Nat) : Update GlobalPool (Backend α) := do
  g.serve (← g.settle) serial

end Engine

namespace Once

/-- Where a caller is, and what it will do next. -/
inductive Point (β : Type)
  /-- Read the cell. -/
  | start
  /-- Take the lock. -/
  | locking
  /-- Read the cell again, holding the lock. -/
  | rereading
  /-- Make the choice, holding the lock. -/
  | choosing
  /-- Store the choice unless the cell is filled, holding the lock. -/
  | storing (choice : β)
  /-- Release the lock and return. -/
  | releasing (result : Outcome β)
  /-- Returned. -/
  | done (result : Outcome β)

/-- The shared cell and lock, and where each caller is. -/
structure State (β : Type) where
  cell : Option β
  lock : Option Nat
  points : Nat → Point β

variable {β : Type}

/-- Nothing chosen, and every caller at its start. -/
def initial : State β := ⟨none, none, fun _ => .start⟩

/-- The state with caller `i` at another point. -/
def State.goto (s : State β) (i : Nat) (p : Point β) : State β :=
  { s with points := fun j => if j = i then p else s.points j }

/-- The next step of caller `i`, whose choice would be `choice`; none while it
waits for the lock or has returned. -/
def step (s : State β) (i : Nat) (choice : Outcome β) : Option (State β) :=
  match s.points i with
  | .start =>
    match s.cell with
    | some b => some (s.goto i (.done (.ok b)))
    | none => some (s.goto i .locking)
  | .locking =>
    match s.lock with
    | none => some ({ s with lock := some i }.goto i .rereading)
    | some _ => none
  | .rereading =>
    match s.cell with
    | some b => some (s.goto i (.releasing (.ok b)))
    | none => some (s.goto i .choosing)
  | .choosing =>
    match choice with
    | .ok b => some (s.goto i (.storing b))
    | .error f => some (s.goto i (.releasing (.error f)))
  | .storing b =>
    -- what is in the cell already stays there
    let kept := s.cell.getD b
    some ({ s with cell := some kept }.goto i (.releasing (.ok kept)))
  | .releasing r => some ({ s with lock := none }.goto i (.done r))
  | .done _ => none

/-- At most `fuel` steps of caller `i`, one after the other. -/
def run (i : Nat) (choice : Outcome β) : (fuel : Nat) → State β → State β
  | 0, s => s
  | fuel + 1, s =>
    match step s i choice with
    | some s => run i choice fuel s
    | none => s

/-- What caller `i` returned, if it has. -/
def State.result? (s : State β) (i : Nat) : Option (Outcome β) :=
  match s.points i with
  | .done r => some r
  | _ => none

end Once

end BlockTensor
