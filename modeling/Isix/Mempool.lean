import Isix.Lib.DList
import Isix.Lib.Runs

/-!
# Isix.Mempool

`libisix/kernel/mempool.c`: a pool of elements of one size.  The free elements
are a list that is kept in the elements themselves, so the state is the memory.

Pointers and sizes have `2 ^ k` bytes; `NULL` is 0.  The list functions of
`prv/list.h` are those of `Isix.Lib.DList`.  The calls change the list in a
critical section and do not overlap.
-/

namespace Isix.Mempool

open Memory (Mem)

/-- `sizeof(void*)` -/
def ptrSize (k : Nat) : Nat := 2 ^ k

/-- `SIZE_MAX + 1` -/
def sizeMod (k : Nat) : Nat := 256 ^ ptrSize k

/-- `ISIX_BYTE_ALIGNMENT_SIZE` -/
def byteAlignmentSize (k : Nat) : Nat := 2 * ptrSize k

/-- `_isixp_align_size` -/
def isixpAlignSize (k len : Nat) : Nat :=
  if len &&& (byteAlignmentSize k - 1) ≠ 0 then
    (len + byteAlignmentSize k - (len &&& (byteAlignmentSize k - 1))) % sizeMod k
  else len

/-- `sizeof(struct mempool_node)` -/
def nodeSize (k : Nat) : Nat := 2 * ptrSize k

/-- `sizeof(struct isix_mempool)` -/
def poolSize (k : Nat) : Nat := nodeSize k + 3 * ptrSize k

/-- `struct isix_mempool`; `freeElems` is the address of the head of the list, the first member. -/
structure Pool where
  freeElems : Nat
  mem : Nat
  memSize : Nat
  elemSize : Nat
deriving DecidableEq, Repr

/-- Results of `isix_mempool_free`. -/
inductive Code
  | eok
  | einvarg
  | einvaddr
deriving DecidableEq, Repr

/-- `addr_in_mempool` -/
def addrInMempool (k : Nat) (mp : Pool) (p : Nat) : Bool :=
  mp.mem ≤ p && p < (mp.mem + mp.memSize) % sizeMod k

/-- The loop of `isix_mempool_create` over the elements from `e` on. -/
def insertLoop (k : Nat) (mp : Pool) : Nat → Nat → Mem → Mem
  | 0, _, m => m
  | n + 1, e, m => insertLoop k mp n (e + 1) (DList.insertEnd (ptrSize k) mp.freeElems (mp.mem + mp.elemSize * e) m)

/-- `isix_mempool_create`; `mp` and `mem` are what `isix_alloc` returns for the pool and for its elements. -/
def isixMempoolCreate (k elems elemSize mp mem : Nat) (m : Mem) : Option (Pool × Mem) :=
  let elemSize := isixpAlignSize k elemSize
  if elems = 0 ∨ elemSize < nodeSize k ∨ (sizeMod k - 1) / elemSize < elems then none
  else if mp = 0 then none
  else if mem = 0 then none
  else
    let pool := ⟨mp, mem, elems * elemSize % sizeMod k, elemSize⟩
    let m := DList.setPrev (ptrSize k) mp mp (DList.setNext (ptrSize k) mp mp m)
    some (pool, insertLoop k pool elems 0 m)

/-- `isix_mempool_alloc` -/
def isixMempoolAlloc (k : Nat) (mp : Option Pool) (m : Mem) : Nat × Mem :=
  match mp with
  | none => (0, m)
  | some mp =>
    let n := DList.next (ptrSize k) m mp.freeElems
    if n = mp.freeElems then (0, m) else (n, DList.unlink (ptrSize k) n m)

/-- `isix_mempool_free` -/
def isixMempoolFree (k : Nat) (mp : Option Pool) (p : Nat) (m : Mem) : Code × Mem :=
  match mp with
  | none => (.einvarg, m)
  | some mp =>
    if p = 0 then (.einvarg, m)
    else if ¬addrInMempool k mp p then (.einvaddr, m)
    else if (p - mp.mem) % mp.elemSize ≠ 0 then (.einvaddr, m)
    else (.eok, DList.insertEnd (ptrSize k) mp.freeElems p m)

/-! ## the pool and its users -/

/-- The first bytes of the elements. -/
def Pool.slots (mp : Pool) : List Nat := (List.range (mp.memSize / mp.elemSize)).map fun e => mp.mem + mp.elemSize * e

/-- A pool, the memory, and the elements that were handed out and not given back. -/
structure State where
  mp : Pool
  mem : Mem
  live : List Nat

inductive Event
  | alloc
  /-- a live element is given back, or an address that is not the start of an element -/
  | free (p : Nat)
  /-- a user writes a byte of a live element, or memory that is not the pool's -/
  | write (a : Nat) (v : UInt8)
deriving DecidableEq

/-- The byte at `a` belongs to a live element. -/
def State.lent (s : State) (a : Nat) : Bool := s.live.any fun p => p ≤ a && a < p + s.mp.elemSize

/-- The byte at `a` belongs to the pool, its structure or an element. -/
def Pool.owns (k : Nat) (mp : Pool) (a : Nat) : Bool :=
  mp.freeElems ≤ a && a < mp.freeElems + poolSize k || mp.mem ≤ a && a < mp.mem + mp.memSize

def step (k : Nat) : Event → State → Option State
  | .alloc, s =>
    let (p, m) := isixMempoolAlloc k (some s.mp) s.mem
    some { s with mem := m, live := if p = 0 then s.live else p :: s.live }
  | .free p, s =>
    if p ∈ s.live ∨ p ∉ s.mp.slots then
      let (code, m) := isixMempoolFree k (some s.mp) p s.mem
      some { s with mem := m, live := if code = .eok then s.live.erase p else s.live }
    else none
  | .write a v, s =>
    if s.lent a ∨ ¬s.mp.owns k a then some { s with mem := Function.update s.mem a v } else none

def Step (k : Nat) (e : Event) (s s' : State) : Prop := step k e s = some s'

end Isix.Mempool
