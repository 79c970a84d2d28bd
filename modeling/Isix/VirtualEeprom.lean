import Isix.Lib.Flash
import Isix.Lib.Memory
import Isix.Lib.Runs

/-!
# Isix.VirtualEeprom

`libfoundation/src/drv/storage/virtual_eeprom.cpp`: a table of words kept as a
log of records in one of two flash pages.  A record is the address of a word and
its value; the newest record of an address counts.  A full page is compacted into
the other one, which becomes the active page.

Halfwords and words are little-endian.  Page sizes are at least the size of a
record, so that the offset of the last slot does not wrap.
-/

namespace Isix.VirtualEeprom

open Flash Memory

/-! ## the object -/

/-- What an object is constructed for: the flash and `flash_sector`. -/
structure Config where
  chip : Chip
  sector : Nat
  /-- What an uninitialised `unsigned short` holds. -/
  junk : Nat

structure Obj where
  activePage : Nat
  inactivePage : Nat
  deriving DecidableEq

def errnoInit : Int := -7000
def errnoVaRange : Int := -7001
def errnoNoSpace : Int := -7002
def errnoNotFound : Int := -7003

def eehdrEmpty : Nat := 0xFFFF
def eehdrValid : Nat := 0xCDAB
def eehdrAddress : Nat := 0

/-- Subtraction of `unsigned`. -/
def usub (a b : Nat) : Nat := (a + (2 ^ 32 - b % 2 ^ 32)) % 2 ^ 32

variable (cfg : Config)

/-- `va_max` -/
def Config.vaMax : Nat := cfg.chip.pageSize / 8

/-- `npages` of the constructor; the pages are the two before this one. -/
def Config.npages : Nat := usub cfg.chip.numPages (2 * cfg.sector)

/-- The offset of the last slot: `sizeof(eeitem)` is 6. -/
def Config.eaddr : Nat := cfg.chip.pageSize / 6 * 6 - 6 + 2

/-! ## accesses -/

def readHalfword (pg pa : Nat) : M Obj (Except Int Nat) := do
  match ← Flash.read cfg.chip pg pa 2 with
  | .ok bs => pure (.ok (ofBytes bs))
  | .error e => pure (.error e)

def readWord (pg pa : Nat) : M Obj (Except Int Nat) := do
  match ← Flash.read cfg.chip pg pa 4 with
  | .ok bs => pure (.ok (ofBytes bs))
  | .error e => pure (.error e)

/-- The bytes written, or an error. -/
def writeHalfword (pg pa val : Nat) : M Obj Int := do
  match ← Flash.write cfg.chip pg pa (toBytes 2 val) with
  | .ok () => pure 2
  | .error e => pure e

def writeWord (pg pa val : Nat) : M Obj Int := do
  match ← Flash.write cfg.chip pg pa (toBytes 4 val) with
  | .ok () => pure 4
  | .error e => pure e

def pageErase (pg : Nat) : M Obj Int := do
  match ← Flash.pageErase cfg.chip pg with
  | .ok () => pure 0
  | .error e => pure e

/-! ## the constructor -/

/-- Neither page is valid. -/
def constructEmpty (npages : Nat) : M Obj Unit := do
  let res ← pageErase cfg (usub npages 1)
  if 0 ≤ res then do
    let res ← pageErase cfg (usub npages 2)
    if 0 ≤ res then do
      let res ← writeHalfword cfg (usub npages 1) eehdrAddress eehdrValid
      if 0 ≤ res then setObj ⟨usub npages 1, usub npages 2⟩ else pure ()
    else pure ()
  else pure ()

/-- The constructor behind the erase of a second valid page. -/
def constructFrom (npages val1 val2 : Nat) : M Obj Unit :=
  if val1 = eehdrValid then setObj ⟨usub npages 1, usub npages 2⟩
  else if val2 = eehdrValid then setObj ⟨usub npages 2, usub npages 1⟩
  else constructEmpty cfg npages

/-- `virtual_eeprom::virtual_eeprom`; the results of the two reads are not looked at. -/
def construct : M Obj Unit := do
  setObj ⟨0, 0⟩
  let npages := cfg.npages
  let val1 ← readHalfword cfg (usub npages 1) eehdrAddress
  let val2 ← readHalfword cfg (usub npages 2) eehdrAddress
  let val1 := val1.toOption.getD cfg.junk
  let val2 := val2.toOption.getD cfg.junk
  if val1 = eehdrValid ∧ val2 = eehdrValid then
    let res ← pageErase cfg (usub npages 2)
    if res < 0 then pure () else constructFrom cfg npages val1 val2
  else constructFrom cfg npages val1 val2

/-! ## reading -/

/-- The loop of `find_free_slot`. -/
def findFreeSlotLoop (page : Nat) : Nat → Nat → M Obj Int
  | 0, _ => pure errnoNoSpace
  | fuel + 1, poffs =>
    if poffs ≤ cfg.eaddr then do
      match ← readHalfword cfg page poffs with
      | .error res => pure res
      | .ok va => if va = eehdrEmpty then pure poffs else findFreeSlotLoop page fuel (poffs + 6)
    else pure errnoNoSpace

/-- `find_free_slot` -/
def findFreeSlot : M Obj Int := do
  let o ← getObj
  findFreeSlotLoop cfg o.activePage cfg.chip.pageSize 2

/-- The loop of `read`; `a` is an `int` there, and below 2 it is negative. -/
def readLoop (page addr : Nat) : Nat → Nat → M Obj (Except Int Nat)
  | 0, _ => pure (.error errnoNotFound)
  | fuel + 1, a =>
    if 2 ≤ a then do
      match ← readHalfword cfg page a with
      | .error _ => pure (.error errnoNotFound)
      | .ok vaddr =>
        if vaddr = addr then do
          match ← readWord cfg page (a + 2) with
          | .ok value => pure (.ok value)
          | .error _ => pure (.error errnoNotFound)
        else readLoop page addr fuel (a - 6)
    else pure (.error errnoNotFound)

/-- `virtual_eeprom::read`: the value, or the code returned. -/
def read (addr : Nat) : M Obj (Except Int Nat) := do
  let o ← getObj
  if o.activePage = 0 ∨ o.inactivePage = 0 then pure (.error errnoInit)
  else if cfg.vaMax < addr then pure (.error errnoVaRange)
  else readLoop cfg o.activePage addr cfg.chip.pageSize cfg.eaddr

/-! ## writing -/

/-- The loop of `sort_flash`, for the `n` addresses from `va` on. -/
def sortLoop (inactive : Nat) : Nat → Nat → Nat → M Obj (Except Int Unit)
  | 0, _, _ => pure (.ok ())
  | n + 1, va, pa => do
    match ← read cfg va with
    | .ok val =>
      let res ← writeHalfword cfg inactive pa va
      if res < 0 then pure (.error res)
      else do
        let res ← writeWord cfg inactive (pa + 2) val
        if res < 0 then pure (.error res) else sortLoop inactive n (va + 1) (pa + 6)
    | .error res => if res = errnoNotFound then sortLoop inactive n (va + 1) pa else pure (.error res)

/-- `sort_flash` -/
def sortFlash : M Obj Int := do
  let o ← getObj
  match ← sortLoop cfg o.inactivePage (cfg.vaMax + 1) 0 2 with
  | .error res => pure res
  | .ok () =>
    let res ← writeHalfword cfg o.inactivePage eehdrAddress eehdrValid
    if res < 0 then pure res
    else do
      let res ← pageErase cfg o.activePage
      setObj ⟨o.inactivePage, o.activePage⟩
      pure res

/-- The record is written to the slot at `fsaddr`. -/
def writeRecord (fsaddr : Int) (address value : Nat) : M Obj Int := do
  let o ← getObj
  let off := (fsaddr % 2 ^ 32).toNat
  let res ← writeHalfword cfg o.activePage off address
  if 0 ≤ res then writeWord cfg o.activePage (off + 2) value else pure res

/-- `virtual_eeprom::write` -/
def write (address value : Nat) : M Obj Int := do
  let o ← getObj
  if o.activePage = 0 ∨ o.inactivePage = 0 then pure errnoInit
  else if cfg.vaMax < address then pure errnoVaRange
  else do
    let fsaddr ← findFreeSlot cfg
    if fsaddr < 0 then do
      let sf ← sortFlash cfg
      if sf < 0 then pure sf
      else do
        let fsaddr ← findFreeSlot cfg
        if 0 < fsaddr then pure fsaddr else writeRecord cfg fsaddr address value
    else writeRecord cfg fsaddr address value

/-! ## runs -/

/-- An object on its flash.  `hist` lists the records: those of the writes that found
a free slot. -/
structure State where
  obj : Obj
  cells : Cells
  log : List Op
  hist : List (Nat × Nat)

def State.medium (s : State) : Medium Obj := ⟨s.obj, s.cells, s.log, []⟩

/-- The state after a call. -/
def State.after (s : State) (m : Medium Obj) : State := ⟨m.obj, m.cells, m.log, s.hist⟩

/-- What `read` returns. -/
def State.get (s : State) (addr : Nat) : Except Int Nat := (read cfg addr s.medium).1

/-- `find_free_slot` succeeds. -/
def State.slotFree (s : State) : Prop := 0 ≤ (findFreeSlot cfg s.medium).1

instance (s : State) : Decidable (s.slotFree cfg) := inferInstanceAs (Decidable (0 ≤ _))

/-- The accesses of `find_free_slot`. -/
def State.search (s : State) : List Op := (findFreeSlot cfg s.medium).2.log.drop s.log.length

/-- The accesses of a write. -/
def State.ops (s : State) (addr value : Nat) : List Op :=
  (write cfg addr value s.medium).2.log.drop s.log.length

/-- A new object on the cells `c`. -/
def mount (c : Cells) (log : List Op) (hist : List (Nat × Nat)) : State :=
  let m := (construct cfg ⟨⟨0, 0⟩, c, log, []⟩).2
  ⟨m.obj, m.cells, m.log, hist⟩

inductive Act where
  | read (addr : Nat)
  | write (addr value : Nat)
  | construct
  /-- A write that is cut after `k` accesses; the object is constructed again. -/
  | crash (k addr value : Nat)

/-- What a part of the accesses of a write leaves of its record: nothing, the address
only, with a value of erased cells, or all of it. -/
def recordOf (pre : List Op) (addr value : Nat) : List (Nat × Nat) :=
  match (pre.filter fun op => !op.isRead).length with
  | 0 => []
  | 1 => [(addr, 2 ^ 32 - 1)]
  | _ => [(addr, value)]

def exec (s : State) : Act → State
  | .read addr => s.after (read cfg addr s.medium).2
  | .write addr value =>
    { s.after (write cfg addr value s.medium).2 with
      hist := if addr ≤ cfg.vaMax ∧ s.slotFree cfg then s.hist ++ [(addr, value)] else s.hist }
  | .construct => mount cfg s.cells s.log s.hist
  | .crash k addr value =>
    let pre := (s.ops cfg addr value).take k
    mount cfg (cfg.chip.applyAll pre s.cells) (s.log ++ pre)
      (if addr ≤ cfg.vaMax ∧ s.slotFree cfg then s.hist ++ recordOf pre addr value else s.hist)

end Isix.VirtualEeprom
