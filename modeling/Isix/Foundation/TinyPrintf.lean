import Isix.Lib.Buffer

/-!
# Isix.Foundation.TinyPrintf

`libfoundation/src/sys/tiny_printf.c`: formatted output to a buffer or to the
character handler.

Pointers, `size_t`, `int` and `long` have 32 bits.  Arithmetic on `int` wraps.
Reading an argument that is not
there, or that has another type, has no result.
-/

namespace Isix.Foundation.TinyPrintf

open Buffer (Buf CString)

/-- The value of an `int`. -/
def int (x : Int) : Int := x.bmod (2 ^ 32)

/-- Where the characters go, and how many there were. -/
structure Out where
  /-- `*str`, if there is a buffer -/
  str : Option Nat
  buf : Buf
  /-- what the handler `fn_putc` was called with -/
  sent : List UInt8
  pc : Nat

/-- `printchar` -/
def printchar (len : Nat) (c : UInt8) (o : Out) : Out :=
  let o' := match o.str with
    | some p => if (o.pc + 1) % 2 ^ 32 < len then { o with buf := o.buf.put p c, str := some (p + 1) } else o
    | none => { o with sent := o.sent ++ [c] }
  { o' with pc := (o.pc + 1) % 2 ^ 32 }

/-- `PAD_RIGHT` and `PAD_ZERO` -/
structure Pad where
  right : Bool := false
  zero : Bool := false
deriving DecidableEq, Repr

/-- The loops of `prints` over `width`. -/
def padLoop (len : Nat) (padchar : UInt8) : Nat → Out → Out
  | 0, o => o
  | width + 1, o => padLoop len padchar width (printchar len padchar o)

/-- The loop of `prints` over the string. -/
def stringLoop (len : Nat) : List UInt8 → Out → Out
  | [], o => o
  | c :: string, o => stringLoop len string (printchar len c o)

/-- `prints` of the text before a terminator. -/
def prints (len : Nat) (string : List UInt8) (width : Int) (pad : Pad) (o : Out) : Out :=
  let padchar : UInt8 := if 0 < width ∧ pad.zero then 48 else 32
  let width := if 0 < width then (if width ≤ string.length then 0 else width - string.length) else width
  let (o, width) := if ¬pad.right then (padLoop len padchar width.toNat o, min width 0) else (o, width)
  let o := stringLoop len string o
  padLoop len padchar width.toNat o

/-- The digit loop of `printi`, which fills `print_buf` from its end. -/
def digitsLoop (base letbase : Nat) : Nat → Nat → List UInt8 → List UInt8
  | 0, _, s => s
  | fuel + 1, u, s =>
    if u = 0 then s
    else
      let t := u % base
      let t := if 10 ≤ t then t + letbase - 48 - 10 else t
      digitsLoop base letbase fuel (u / base) (UInt8.ofNat (t + 48) :: s)

/-- `printi` -/
def printi (len : Nat) (i : BitVec 64) (base : Nat) (sign : Bool) (width : Int) (pad : Pad) (letbase : Nat) (o : Out) : Out :=
  if i = 0 then prints len [48] width pad o
  else
    let neg := sign && base == 10 && i.msb
    let u := if neg then (-i).toNat else i.toNat
    let s := digitsLoop base letbase (u + 1) u []
    if neg then
      if width ≠ 0 ∧ pad.zero then prints len s (int (width - 1)) pad (printchar len 45 o)
      else prints len (45 :: s) width pad o
    else prints len s width pad o

/-! ## conversions -/

inductive Modf
  | hh
  | h
  | n
  | l
  | ll
deriving DecidableEq, Repr

/-- What stands between `%` and the next part of the format; no `spec` if the format ends before it. -/
structure Conv where
  pad : Pad
  width : Int
  modf : Modf
  spec : Option UInt8
deriving DecidableEq, Repr

/-- The flag `-`. -/
def readMinus : List UInt8 → Bool × List UInt8
  | 45 :: format => (true, format)
  | format => (false, format)

/-- The loop over the flags `0`. -/
def readZeros : List UInt8 → Bool → Bool × List UInt8
  | [], zero => (zero, [])
  | c :: format, zero => if c = 48 then readZeros format true else (zero, c :: format)

/-- The loop over the width. -/
def readWidth : List UInt8 → Int → Int × List UInt8
  | [], width => (width, [])
  | c :: format, width =>
    if 48 ≤ c ∧ c ≤ 57 then readWidth format (int (width * 10 + (c.toNat - 48 : Nat))) else (width, c :: format)

/-- The length modifier. -/
def readModf : List UInt8 → Modf × List UInt8
  | 104 :: 104 :: format => (.hh, format)
  | 104 :: format => (.h, format)
  | 108 :: 108 :: format => (.ll, format)
  | 108 :: format => (.l, format)
  | 122 :: format => (.l, format)
  | format => (.n, format)

def readConversion (format : List UInt8) : Conv × List UInt8 :=
  let (right, format) := readMinus format
  let (zero, format) := readZeros format false
  let (width, format) := readWidth format 0
  let (modf, format) := readModf format
  (⟨⟨right, zero⟩, width, modf, format.head?⟩, format.tail)

/-- An argument: an `int` or `long`, a `long long`, a string (`none` is `NULL`), another pointer. -/
inductive Arg
  | word (v : BitVec 32)
  | dword (v : BitVec 64)
  | str (s : Option CString)
  | ptr (v : BitVec 32)
deriving DecidableEq, Repr

/-- `va_arg` for a signed conversion. -/
def signedArg : Modf → List Arg → Option (BitVec 64 × List Arg)
  | .hh, .word v :: args => some ((v.setWidth 8).signExtend 64, args)
  | .h, .word v :: args => some ((v.setWidth 16).signExtend 64, args)
  | .n, .word v :: args => some (v.signExtend 64, args)
  | .l, .word v :: args => some (v.signExtend 64, args)
  | .ll, .dword v :: args => some (v, args)
  | _, _ => none

/-- `va_arg` for an unsigned conversion. -/
def unsignedArg : Modf → List Arg → Option (BitVec 64 × List Arg)
  | .hh, .word v :: args => some ((v.setWidth 8).setWidth 64, args)
  | .h, .word v :: args => some ((v.setWidth 16).setWidth 64, args)
  | .n, .word v :: args => some (v.setWidth 64, args)
  | .l, .word v :: args => some (v.setWidth 64, args)
  | .ll, .dword v :: args => some (v, args)
  | _, _ => none

/-- `"(null)"` -/
def nullText : CString := ⟨[40, 110, 117, 108, 108, 41], Buffer.nonzero_of_all rfl⟩

/-- The `switch` over the specifier. -/
def convert (len : Nat) (conv : Conv) (spec : UInt8) (args : List Arg) (o : Out) : Option (Out × List Arg) :=
  if spec = 115 then -- s
    match args with
    | .str s :: args => some (prints len (s.getD nullText).val conv.width conv.pad o, args)
    | _ => none
  else if spec = 100 ∨ spec = 105 then -- d, i
    (signedArg conv.modf args).map fun (v, args) => (printi len v 10 true conv.width conv.pad 97 o, args)
  else if spec = 117 ∨ spec = 120 ∨ spec = 88 then -- u, x, X
    (unsignedArg conv.modf args).map fun (v, args) =>
      let base := if spec = 117 then 10 else 16
      let letbase := if spec = 120 then 97 else 65
      (printi len v base false conv.width conv.pad letbase o, args)
  else if spec = 112 then -- p
    match args with
    | .ptr v :: args => some (printi len (v.setWidth 64) 16 false 8 { zero := true } 65 o, args)
    | _ => none
  else if spec = 99 then -- c
    match args with
    | .word v :: args =>
      -- a terminator prints nothing
      let scr := if v.setWidth 8 = 0 then [] else [UInt8.ofBitVec (v.setWidth 8)]
      some (prints len scr conv.width conv.pad o, args)
    | _ => none
  else some (printchar len spec (printchar len 37 o), args)

/-- The end of `tiny_vaprintf`. -/
def terminate (len : Nat) (o : Out) : Out :=
  match o.str with
  | some p => if p ≠ 0 ∧ 0 < len then { o with buf := o.buf.put p 0 } else o
  | none => o

/-- The loop of `tiny_vaprintf`; every pass takes a character of the format. -/
def loop (len : Nat) : Nat → List UInt8 → List Arg → Out → Option Out
  | 0, _, _, _ => none
  | _ + 1, [], _, o => some (terminate len o)
  | fuel + 1, c :: format, args, o =>
    if c ≠ 37 then loop len fuel format args (printchar len c o)
    else if format.head? = some 37 then loop len fuel format.tail args (printchar len 37 o)
    else
      let (conv, rest) := readConversion format
      match conv.spec with
      | none => some o
      | some spec => (convert len conv spec args o).bind fun (o, args) => loop len fuel rest args o

/-- `tiny_vaprintf` -/
def tinyVaprintf (len : Nat) (format : CString) (args : List Arg) (o : Out) : Option Out :=
  loop len (format.val.length + 1) format.val args o

/-- `tiny_printf`: the result, and what a handler gets. -/
def tinyPrintf (format : CString) (args : List Arg) : Option (Int × List UInt8) :=
  (tinyVaprintf 0 format args ⟨none, ⟨fun _ => 0, []⟩, [], 0⟩).map fun o => (int o.pc, o.sent)

/-- `tiny_snprintf` -/
def tinySnprintf (out maxLen : Nat) (format : CString) (args : List Arg) (b : Buf) : Option (Int × Buf) :=
  (tinyVaprintf maxLen format args ⟨some out, b, [], 0⟩).map fun o => (int o.pc, o.buf)

end Isix.Foundation.TinyPrintf
