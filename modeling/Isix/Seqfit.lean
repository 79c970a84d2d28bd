import Isix.Lib.Memory
import Isix.Lib.Runs

/-!
# Isix.Seqfit

`libisix/kernel/mm/malloc/seqfit.c`: a heap with headers in place and a free
list in address order.  Everything the allocator keeps is in the memory it hands
out and in its static variable `heap`, so the state is the memory; pointers and
sizes are numbers below 2^32, and `NULL` is 0.

A loop of the source runs on fuel.  The functions run with the scheduler locked,
so calls do not overlap.
-/

namespace Isix.Seqfit

open Memory

/-! ## headers -/

/-- `sizeof(struct header)` -/
def headerSize : Nat := 8

/-- `MAGIC` -/
def magic : Nat := 0x19790822

/-- `ISIX_BYTE_ALIGNMENT_SIZE`, twice the size of a pointer. -/
def byteAlignment : Nat := 8

def sizeMod : Nat := 2 ^ 32

/-- `ALIGN_SIZE`; the mask clears the low three bits. -/
def alignSize (p : Nat) : Nat := (p + (byteAlignment - 1)) % sizeMod / byteAlignment * byteAlignment

/-- Subtraction of `size_t`. -/
def sub (a b : Nat) : Nat := (a + (sizeMod - b)) % sizeMod

/-- `p->h.h_next`, which is also `p->h.h_magic` -/
def next (p : Nat) (m : Mem) : Nat := load 4 p m

/-- `p->h_size` -/
def size (p : Nat) (m : Mem) : Nat := load 4 (p + 4) m

def setNext (p v : Nat) (m : Mem) : Mem := store 4 p v m

def setSize (p v : Nat) (m : Mem) : Mem := store 4 (p + 4) v m

/-- `LIMIT` -/
def limit (p : Nat) (m : Mem) : Nat := (p + headerSize + size p m) % sizeMod

/-- Where the linker puts the heap and the variable `heap`, whose first member
`free` is a header and is followed by `used`. -/
structure Region where
  start : Nat
  len : Nat
  heap : Nat
  start_align : 8 ∣ start
  len_align : 8 ∣ len
  heap_align : 4 ∣ heap
  start_pos : 0 < start
  start_fits : start + len < 2 ^ 32
  heap_fits : heap + 12 ≤ 2 ^ 32
  apart : heap + 12 ≤ start ∨ start + len ≤ heap

variable (R : Region)

/-- `heap.used` -/
def used (m : Mem) : Nat := load 4 (R.heap + 8) m

def setUsed (v : Nat) (m : Mem) : Mem := store 4 (R.heap + 8) v m

/-- `seqfit_alloc_init` -/
def seqfitAllocInit (m : Mem) : Mem :=
  let m := setSize R.start (sub R.len headerSize) m
  let m := setNext R.start 0 m
  let m := setNext R.heap R.start m
  let m := setSize R.heap 0 m
  setUsed R 0 m

/-! ## allocation -/

/-- `seqfit_alloc` behind the test of the block `hp`, whose predecessor on the
free list is `qp`. -/
def takeBlock (n qp hp : Nat) (m : Mem) : Mem :=
  let m :=
    if size hp m < (n + headerSize) % sizeMod then setNext qp (next hp m) m
    else
      let fp := (hp + headerSize + n) % sizeMod
      let m := setNext fp (next hp m) m
      let m := setSize fp (sub (sub (size hp m) headerSize) n) m
      let m := setNext qp fp m
      setSize hp n m
  let m := setNext hp magic m
  setUsed R ((used R m + n) % sizeMod) m

/-- The loop of `seqfit_alloc`. -/
def allocLoop (n : Nat) : Nat → Nat → Mem → Option (Mem × Nat)
  | 0, _, _ => none
  | fuel + 1, qp, m =>
    if next qp m = 0 then some (m, 0)
    else
      let hp := next qp m
      if n ≤ size hp m then some (takeBlock R n qp hp m, hp + headerSize)
      else allocLoop n fuel hp m

/-- `seqfit_alloc`; the second component is the pointer returned. -/
def seqfitAlloc (fuel n : Nat) (m : Mem) : Option (Mem × Nat) :=
  allocLoop R (alignSize n) fuel R.heap m

/-! ## release -/

/-- Insertion of `hp` after `qp`. -/
def linkBlock (qp hp : Nat) (m : Mem) : Mem :=
  let m := setNext hp (next qp m) m
  setNext qp hp m

/-- The block `q` becomes a part of `p`. -/
def takeIn (p q : Nat) (m : Mem) : Mem :=
  let m := setSize p ((size p m + (size q m + headerSize)) % sizeMod) m
  setNext p (next q m) m

/-- Merge with the next block. -/
def mergeNext (hp : Nat) (m : Mem) : Mem :=
  if limit hp m = next hp m then takeIn hp (next hp m) m else m

/-- Merge with the previous block. -/
def mergePrev (qp hp : Nat) (m : Mem) : Mem := if limit qp m = hp then takeIn qp hp m else m

/-- `seqfit_free` where the place of the block `hp`, behind `qp`, is found. -/
def insertBlock (blockSiz qp hp : Nat) (m : Mem) : Mem :=
  let m := linkBlock qp hp m
  let m := mergeNext hp m
  let m := mergePrev qp hp m
  setUsed R (sub (used R m) blockSiz) m

/-- The loop of `seqfit_free`. -/
def freeLoop (blockSiz hp : Nat) : Nat → Nat → Mem → Option Mem
  | 0, _, _ => none
  | fuel + 1, qp, m =>
    if (qp = R.heap ∨ qp < hp) ∧ (next qp m = 0 ∨ hp < next qp m) then
      some (insertBlock R blockSiz qp hp m)
    else freeLoop blockSiz hp fuel (next qp m) m

/-- `seqfit_free` -/
def seqfitFree (fuel p : Nat) (m : Mem) : Option Mem :=
  if p = 0 then some m
  else
    let hp := p - headerSize
    freeLoop R (size hp m) hp fuel R.heap m

/-! ## the other functions -/

/-- `seqfit_heap_getsize` -/
def seqfitHeapGetsize (ptr : Nat) (m : Mem) : Nat :=
  let hp := ptr - headerSize
  if next hp m ≠ magic then 0 else size hp m

/-- `seqfit_realloc` -/
def seqfitRealloc (fuel ptr n : Nat) (m : Mem) : Option (Mem × Nat) :=
  if ptr = 0 then seqfitAlloc R fuel n m
  else if n = 0 then (seqfitFree R fuel ptr m).map fun m => (m, 0)
  else
    let oldSize := seqfitHeapGetsize ptr m
    if n ≤ oldSize then some (m, ptr)
    else
      (seqfitAlloc R fuel n m).bind fun r =>
        let (m, mem) := r
        if mem ≠ 0 then (seqfitFree R fuel ptr (copy mem ptr oldSize m)).map fun m => (m, mem)
        else some (m, mem)

/-- The loop of `_isixp_heap_check`; `prev` is 0 for the first block. -/
def checkLoop : Nat → Nat → Nat → Mem → Option Int
  | 0, _, _, _ => none
  | fuel + 1, p, prev, m =>
    if p = 0 then some 0
    else if p < R.start ∨ R.start + R.len < limit p m ∨ limit p m < p then some (-1)
    else if size p m % byteAlignment ≠ 0 then some (-2)
    else if prev ≠ 0 ∧ p ≤ prev then some (-3)
    else if prev ≠ 0 ∧ p < limit prev m then some (-4)
    else if prev ≠ 0 ∧ limit prev m = p then some (-5)
    else checkLoop fuel (next p m) p m

/-- `_isixp_heap_check` -/
def isixpHeapCheck (fuel : Nat) (m : Mem) : Option Int := checkLoop R fuel (next R.heap m) 0 m

/-! ## runs -/

/-- The memory, and the blocks that were handed out and not given back. -/
structure Heap where
  mem : Mem
  live : List Nat

/-- The calls, and the writes of an owner to its block. -/
inductive Op where
  | alloc (n : Nat)
  | free (p : Nat)
  | realloc (p n : Nat)
  | write (p off : Nat) (b : UInt8)

/-- The arguments are of their types, and blocks are used by their owners. -/
def Op.valid (h : Heap) : Op → Prop
  | .alloc n => n < sizeMod
  | .free p => p = 0 ∨ p ∈ h.live
  | .realloc p n => (p = 0 ∨ p ∈ h.live) ∧ n < sizeMod
  | .write p off _ => p ∈ h.live ∧ off < size (p - headerSize) h.mem

instance (h : Heap) (op : Op) : Decidable (op.valid h) := by
  unfold Op.valid
  split <;> infer_instance

/-- The heap after a call or a write. -/
def exec (fuel : Nat) (h : Heap) : Op → Option Heap
  | .alloc n => (seqfitAlloc R fuel n h.mem).map fun r =>
    ⟨r.1, if r.2 = 0 then h.live else r.2 :: h.live⟩
  | .free p => (seqfitFree R fuel p h.mem).map fun m => ⟨m, h.live.erase p⟩
  | .realloc p n => (seqfitRealloc R fuel p n h.mem).map fun r =>
    ⟨r.1, if r.2 = 0 then (if n = 0 then h.live.erase p else h.live) else r.2 :: h.live.erase p⟩
  | .write p off b => some { h with mem := Function.update h.mem (p + off) b }

/-- A call that meets `C` and returns, or a write. -/
def Step (C : Op → Prop) (op : Op) (h h' : Heap) : Prop :=
  op.valid h ∧ C op ∧ ∃ fuel, exec R fuel h op = some h'

/-- `Step`, by evaluation. -/
def step? (C : Op → Prop) [DecidablePred C] (fuel : Nat) (op : Op) (h : Heap) : Option Heap :=
  if op.valid h ∧ C op then exec R fuel h op else none

theorem step_of_step? (C : Op → Prop) [DecidablePred C] (fuel : Nat) (op : Op) (h h' : Heap)
    (hs : step? R C fuel op h = some h') : Step R C op h h' := by
  obtain ⟨⟨hv, hc⟩, hs⟩ := Option.ite_none_right_eq_some.mp hs
  exact ⟨hv, hc, fuel, hs⟩

end Isix.Seqfit
