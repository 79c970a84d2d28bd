import Isix.Lib.Buffer

/-!
# Isix.Foundation.Utils

`libfoundation/src/algo/utils.c`: numbers to text and back.

The buffer is memory at the address `str`.  The digits are written in reverse,
behind them the fill, and the whole is turned around in place.  A loop that
does not end within its fuel has no result.
-/

namespace Isix.Foundation

open Buffer (Buf)

/-- `base_to_digit` -/
def baseToDigit (digit : Nat) : UInt8 :=
  if digit ≤ 9 then UInt8.ofNat (digit + 48)
  else if digit - 10 ≤ 25 then UInt8.ofNat (digit - 10 + 65)
  else 46

/-- The loop of `strrev`: the two bytes are exchanged with three exclusive ors. -/
def strrevLoop : Nat → Nat → Nat → Buf → Buf
  | 0, _, _, b => b
  | fuel + 1, p1, p2, b =>
    if p1 < p2 then
      let b := b.put p1 (b.mem p1 ^^^ b.mem p2)
      let b := b.put p2 (b.mem p2 ^^^ b.mem p1)
      let b := b.put p1 (b.mem p1 ^^^ b.mem p2)
      strrevLoop fuel (p1 + 1) (p2 - 1) b
    else b

/-- `strrev` -/
def strrev (str len : Nat) (b : Buf) : Buf :=
  if b.mem str = 0 then b else strrevLoop len str (str + len - 1) b

/-- The first loop of `fnd_uitoa`. -/
def digitLoop (str base : Nat) : Nat → Nat → Nat → Buf → Option (Nat × Buf)
  | 0, _, _, _ => none
  | fuel + 1, val, digits, b =>
    if 0 < val then digitLoop str base fuel (val / base) (digits + 1) (b.put (str + digits) (baseToDigit (val % base)))
    else some (digits, b)

/-- The second loop. -/
def fillLoop (str : Nat) (fmtch : UInt8) : Nat → Nat → Buf → Nat × Buf
  | 0, digits, b => (digits, b)
  | i + 1, digits, b => fillLoop str fmtch i (digits + 1) (b.put (str + digits) fmtch)

/-- `fnd_uitoa` and, with a value of 64 bits, `fnd_ulltoa`. -/
def fndUitoa (str val : Nat) (fmt : Int) (fmtch : UInt8) (base : Nat) (b : Buf) : Option Buf :=
  if 16 < fmt then some b
  else
    (digitLoop str base (val + 1) val 0 b).map fun (digits, b) =>
      let (digits, b) := fillLoop str fmtch (fmt - digits).toNat digits b
      let b := b.put (str + digits) 0
      let b := strrev str digits b
      if val = 0 ∧ b.mem (str + digits - 1) ≠ 48 then b.put (str + digits - 1) 48 else b

def fndUlltoa := fndUitoa

/-- The loop of `fnd_atoui`, from the last character to the first. -/
def atouiLoop : List UInt8 → Nat → Nat → Nat
  | [], ret, _ => ret
  | c :: rest, ret, w =>
    if c < 48 ∨ 57 < c then ret
    else atouiLoop rest ((ret + (c.toNat - 48) * w) % 2 ^ 32) (w * 10 % 2 ^ 32)

/-- `fnd_atoui` of the text before the terminator. -/
def fndAtoui (str : List UInt8) : Nat := atouiLoop str.reverse 0 1

end Isix.Foundation
