import BlockTensor.Tensor.Basic

/-!
# The tensor cache

Tensors that are no longer needed may be parked in a cache and handed out again
for the same encoding and shape. The cache holds a bounded number of bytes; to
make room it drops the buffers that have been parked longest.

* `Cache.get` lends the buffer last parked under a key, with the contents it was
  parked with, or a tensor of zeros.
* `Cache.release` parks an owned tensor that fits the cache at all, after
  dropping the oldest buffers until it fits; other tensors are just dropped.
* A `Loan` ends by `Loan.giveBack`, which releases the tensor, or by
  `Loan.detach`, which keeps it.

Buffers are kept in stacks, one to a key, each buffer with the stamp of its
release; the stamps in order, with their keys, say which buffer is the oldest.
-/

namespace BlockTensor

/-- What tensors must share for one to serve as another. -/
structure CacheKey where
  dtype : DType
  shape : Shape
  deriving DecidableEq

/-- A parked buffer, and when it was parked. -/
structure Parked (α : Type) where
  stamp : Nat
  elems : Elements α

/-- A tensor on loan from a cache. -/
structure Loan (α : Type) where
  tensor : Tensor α

/-- Counters of what a cache has done, and the bytes that it holds. -/
structure CacheStats where
  hits : Nat
  misses : Nat
  evictions : Nat
  idleBytes : Nat
  deriving DecidableEq

/-- A cache of tensors. -/
structure Cache (α : Type) where
  capacity : Nat
  idleBytes : Nat
  idle : List (CacheKey × List (Parked α))
  order : List (Nat × CacheKey)
  clock : Nat
  hits : Nat
  misses : Nat
  evictions : Nat

namespace Cache

variable {α : Type}

/-- The capacity where none is chosen: 100 MiB. -/
def defaultCapacity : Nat := 100 * 1024 * 1024

/-- The cache with nothing in it. -/
def empty (capacity : Nat) : Cache α := ⟨capacity, 0, [], [], 0, 0, 0, 0⟩

/-- The stack of a key, the last parked at the end. -/
def bucket (idle : List (CacheKey × List (Parked α))) (key : CacheKey) : List (Parked α) :=
  match idle.find? fun p => p.1 = key with
  | some p => p.2
  | none => []

/-- The stacks with that of one key replaced; an empty stack is no stack. -/
def setBucket (idle : List (CacheKey × List (Parked α))) (key : CacheKey)
    (stack : List (Parked α)) : List (CacheKey × List (Parked α)) :=
  let others := idle.filter fun p => p.1 ≠ key
  if stack.isEmpty then others else others ++ [(key, stack)]

/-- Take the buffer last parked under a key. -/
def reuse (c : Cache α) (key : CacheKey) : Option (Elements α × Cache α) :=
  match (bucket c.idle key).getLast? with
  | none => none
  | some p =>
    some (p.elems,
      { c with
        idle := setBucket c.idle key (bucket c.idle key).dropLast
        order := c.order.filter fun o => o.1 ≠ p.stamp
        hits := c.hits + 1
        idleBytes := c.idleBytes - p.elems.nbytes })

/-- A tensor for a key: a parked one, or zeros. -/
def get [Scalar α] (key : CacheKey) : Update (Cache α) (Loan α) := fun c =>
  match c.reuse key with
  | some (elems, c) => .ok ⟨.owning key.shape elems⟩ c
  | none =>
    Update.ofOutcome (Loan.mk <$> Tensor.zeros key.dtype key.shape)
      { c with misses := c.misses + 1 }

/-- Drop the buffer that was parked under `key` at time `stamp`. -/
def drop (c : Cache α) (stamp : Nat) (key : CacheKey) : Cache α :=
  let stack := bucket c.idle key
  match stack.find? fun p => p.stamp = stamp with
  | none => { c with idle := setBucket c.idle key stack }
  | some p =>
    { c with
      idle := setBucket c.idle key (stack.eraseP fun p => p.stamp = stamp)
      idleBytes := c.idleBytes - p.elems.nbytes
      evictions := c.evictions + 1 }

/-- Drop the oldest buffers, at most `fuel` of them, until `size` more bytes
fit. -/
def makeRoomFrom (size : Nat) : (fuel : Nat) → Cache α → Cache α
  | 0, c => c
  | fuel + 1, c =>
    if c.idleBytes + size ≤ c.capacity then c
    else match c.order with
      | [] => c
      | (stamp, key) :: rest => makeRoomFrom size fuel (drop { c with order := rest } stamp key)

/-- Drop the oldest buffers until `size` more bytes fit. -/
def makeRoom (c : Cache α) (size : Nat) : Cache α := makeRoomFrom size c.order.length c

/-- Park a buffer that fits. -/
def park (c : Cache α) (key : CacheKey) (elems : Elements α) : Cache α :=
  { c with
    idle := setBucket c.idle key (bucket c.idle key ++ [⟨c.clock, elems⟩])
    order := c.order ++ [(c.clock, key)]
    clock := c.clock + 1
    idleBytes := c.idleBytes + elems.nbytes }

/-- Give a tensor back. -/
def release (c : Cache α) (t : Tensor α) : Cache α :=
  match t.owned? with
  | none => c
  | some elems =>
    if c.capacity < elems.nbytes then c
    else (c.makeRoom elems.nbytes).park ⟨t.dtype, t.shape⟩ elems

/-- Drop every parked buffer. -/
def clear (c : Cache α) : Cache α := { c with idle := [], order := [], idleBytes := 0 }

/-- The counters. -/
def stats (c : Cache α) : CacheStats := ⟨c.hits, c.misses, c.evictions, c.idleBytes⟩

/-- The one-line description. -/
def summary (c : Cache α) : String :=
  "TensorCache \x7b keys: " ++ toString c.idle.length
    ++ ", idle_buffers: " ++ toString c.order.length
    ++ ", idle_bytes: " ++ toString c.idleBytes
    ++ ", capacity_bytes: " ++ toString c.capacity ++ " \x7d"

end Cache

namespace Loan

variable {α : Type}

/-- End a loan by releasing its tensor. -/
def giveBack (l : Loan α) (c : Cache α) : Cache α := c.release l.tensor

/-- End a loan by keeping its tensor. -/
def detach (l : Loan α) : Tensor α := l.tensor

end Loan

end BlockTensor
