import Mathlib.Algebra.Group.Int.Defs
import Mathlib.Data.List.Basic

/-!
# Isix.Gsm.ParamParser

`libgsm/src/param_parser.cpp`: the parameters of a modem answer, parsed in
place.

The memory is the list of the bytes from `m_buf` on, which goes on behind the
`len` bytes of the buffer; positions count from `m_buf`.  A method that fails
gives its error, which is then also `m_error`.
-/

namespace Isix.Gsm

inductive Error
  | bufOverflow
  | unexpectedChar
  | expectedParam
  | unexpectedQuote
  | quoteNotFound
  | expectedNumber
  | unexpectedEof
  | expectedComma
  | rangeError
  | eolExcepted
deriving DecidableEq, Repr

/-- `NOT_SET` -/
def notSet : Int := -1

/-- `class param_parser`; `eob` is `m_eob - m_buf`. -/
structure Parser where
  mem : List UInt8
  eob : Nat
  pos : Nat := 0
  commaPos : Option Nat := none
deriving DecidableEq, Repr

namespace Parser

/-- `*m_pos` -/
def cur (p : Parser) : UInt8 := p.mem.getD p.pos 0

/-- `good()` -/
def good (p : Parser) : Bool := p.pos < p.eob

/-- `++m_pos` -/
def next (p : Parser) : Parser := { p with pos := p.pos + 1 }

/-- `*m_pos` becomes a terminator. -/
def cut (p : Parser) : Parser := { p with mem := p.mem.set p.pos 0 }

/-- `skip_space`, which skips one space -/
def skipSpace (p : Parser) : Parser := if p.good ∧ p.cur = 32 then p.next else p

/-- The loops up to a character or the end of the text. -/
def seekLoop (stop : UInt8) : Nat → Parser → Parser
  | 0, p => p
  | fuel + 1, p => if p.good ∧ p.cur ≠ 0 ∧ p.cur ≠ stop then seekLoop stop fuel p.next else p

/-- The pointer moves by one towards `m_eob`, where the loops stop. -/
def seek (stop : UInt8) (p : Parser) : Parser := seekLoop stop (p.eob - p.pos) p

/-- `parse_char` -/
def parseChar (c : UInt8) (allowNoChar : Bool) (p : Parser) : Except Error (Bool × Parser) :=
  let p := p.skipSpace
  if ¬p.good then .error .bufOverflow
  else if p.cur ≠ c then
    if allowNoChar then .ok (false, p) else .error .unexpectedChar
  else .ok (true, p.next)

/-- `check_empty_parameter` -/
def checkEmptyParameter (allowNoParameter : Bool) (p : Parser) : Except Error (Bool × Parser) :=
  let p := p.skipSpace
  if ¬p.good then .error .bufOverflow
  else if p.cur = 44 ∨ p.cur = 0 then
    if allowNoParameter then .ok (true, p) else .error .expectedParam
  else .ok (false, p)

/-- A string in quotation marks that may contain them: up to the mark at the end of the line. -/
def parseQuotedLine (p : Parser) : Except Error (Option Nat × Parser) :=
  let beg := if p.cur ≠ 0 then some p.pos else none
  let p := p.seek 0
  if beg = some p.pos ∨ p.mem.getD (p.pos - 1) 0 ≠ 34 then .error .unexpectedQuote
  else
    .ok (beg, { p with pos := p.pos - 1 }.cut)

/-- `do_parse_string`: the position of the string, or `nullptr`. -/
def doParseString (stringWithQuotationMarks : Bool) (p : Parser) : Except Error (Option Nat × Parser) :=
  match p.parseChar 34 true with
  | .error e => .error e
  | .ok (true, p) =>
    if stringWithQuotationMarks then parseQuotedLine p
    else
      let beg := p.pos
      let p := p.seek 34
      if ¬p.good then .error .bufOverflow
      else if p.cur ≠ 34 then .error .quoteNotFound
      else .ok (some beg, p.cut.next)
  | .ok (false, p) =>
    let beg := p.pos
    let p := p.seek 44
    if ¬p.good then .error .bufOverflow
    else if p.cur = 44 then .ok (some beg, { p with commaPos := some p.pos }.cut)
    else .ok (some beg, p)

/-- `parse_string` -/
def parseString (allowNoString stringWithQuotationMarks : Bool) (p : Parser) : Except Error (Option Nat × Parser) :=
  match p.checkEmptyParameter allowNoString with
  | .error e => .error e
  | .ok (true, p) => .ok (some p.pos, { p with commaPos := some p.pos }.cut)
  | .ok (false, p) => p.doParseString stringWithQuotationMarks

end Parser

/-! ## numbers -/

/-- `isspace` -/
def isSpace (c : UInt8) : Bool := c = 32 ∨ 9 ≤ c ∧ c ≤ 13

/-- `isdigit` -/
def isDigit (c : UInt8) : Bool := 48 ≤ c ∧ c ≤ 57

/-- The value of digits. -/
def decimal (digits : List UInt8) : Nat := digits.foldl (fun n c => n * 10 + (c.toNat - 48)) 0

/-- `LONG_MIN` and `LONG_MAX` are where `strtol` stops. -/
def clamp (v : Int) : Int := max (-2 ^ 31) (min v (2 ^ 31 - 1))

/-- `strtol` in base 10: the number and how many characters it takes, none if there is no number. -/
def strtol (text : List UInt8) : Int × Nat :=
  let spaces := (text.takeWhile isSpace).length
  let text := text.drop spaces
  let (neg, sign) := if text.head? = some 45 then (true, 1) else if text.head? = some 43 then (false, 1) else (false, 0)
  let digits := (text.drop sign).takeWhile isDigit
  if digits = [] then (0, 0)
  else (clamp (if neg then -(decimal digits : Int) else decimal digits), spaces + sign + digits.length)

namespace Parser

/-- `do_parse_int` -/
def doParseInt (p : Parser) : Except Error (Int × Parser) :=
  let p := p.skipSpace
  if ¬p.good then .error .bufOverflow
  else
    let (val, n) := strtol (p.mem.drop p.pos)
    if n = 0 then .error .expectedNumber
    else
      let p := { p with pos := if p.eob ≤ p.pos + n then p.eob - 1 else p.pos + n }
      if ¬p.good then .error .bufOverflow else .ok (val, p)

/-- `parse_int` -/
def parseInt (allowNoInt : Bool) (p : Parser) : Except Error (Int × Parser) :=
  match p.checkEmptyParameter allowNoInt with
  | .error e => .error e
  | .ok (true, p) => .ok (notSet, p)
  | .ok (false, p) => p.doParseInt

/-- `parse_comma` -/
def parseComma (allowNoComma : Bool) (p : Parser) : Except Error (Bool × Parser) :=
  if p.commaPos.isSome then .ok (¬allowNoComma, { p with commaPos := none }.next)
  else
    let p := p.skipSpace
    if ¬p.good then .error .bufOverflow
    else if p.cur ≠ 44 then
      if allowNoComma then .ok (false, p.next) else .error .expectedComma
    else .ok (true, p.next)

/-- `check_eol` -/
def checkEol (p : Parser) : Except Error Unit := if p.cur = 0 then .ok () else .error .eolExcepted

end Parser

/-! ## lists of strings -/

namespace Parser

/-- Where a failed `parse_string` leaves the pointer. -/
def strayed (p : Parser) : Parser :=
  let p := p.skipSpace
  if ¬p.good ∨ p.cur = 44 ∨ p.cur = 0 then p
  else
    let p := p.skipSpace
    if p.cur = 34 then p.next.seek 34 else p.seek 44

/-- The loop of `parse_string_list`, which takes the strings that `parse_string` returns, also `nullptr`. -/
def stringListLoop : Nat → List (Option Nat) → Parser → Except Error (List (Option Nat) × Parser)
  | 0, result, p => .ok (result, p)
  | fuel + 1, result, p =>
    if ¬p.good then .ok (result, p)
    else
      let (str, p) := match p.parseString false false with
        | .error _ => (none, p.strayed)
        | .ok (str, p) => (str, p)
      let c := p.cur
      let p := p.next
      let result := result ++ [str]
      if c = 41 then .ok (result, p)
      else if c = 0 then .error .unexpectedEof
      else if c ≠ 44 then .error .expectedComma
      else stringListLoop fuel result p

/-- `parse_string_list`: the positions of the strings -/
def parseStringList (allowNoList : Bool) (p : Parser) : Except Error (List (Option Nat) × Parser) :=
  match p.checkEmptyParameter allowNoList with
  | .error e => .error e
  | .ok (true, p) => .ok ([], p)
  | .ok (false, p) =>
    match p.parseChar 40 false with
    | .error _ => .error .unexpectedChar
    | .ok (_, p) =>
      if ¬p.good then .error .bufOverflow
      else
        match (if p.cur ≠ 0 ∧ p.cur ≠ 41 then stringListLoop p.eob [] p else .ok ([], p)) with
        | .error e => .error e
        | .ok (result, p) => if ¬p.good then .error .bufOverflow else .ok (result, p)

end Parser

/-! ## lists of parameter ranges -/

structure IntRange where
  high : Int := notSet
  low : Int := notSet
deriving DecidableEq, Repr

structure ParameterRange where
  parameter : Option Nat := none
  range : IntRange := {}
deriving DecidableEq, Repr

namespace Parser

/-- `parse_range`; what the text does not give stays as it is in `result`. -/
def parseRange (result : IntRange) (allowNoRange allowNonRange : Bool) (p : Parser) : Except Error (IntRange × Parser) :=
  match p.checkEmptyParameter allowNoRange with
  | .error e => .error e
  | .ok (true, p) => .ok (result, p)
  | .ok (false, p) => do
    let (_, p) ← p.parseChar 40 false
    let (low, p) ← p.parseInt false
    let (minus, p) ← p.parseChar 45 allowNonRange
    let (high, p) ← if minus then p.parseInt false else .ok (result.high, p)
    match p.parseChar 41 false with
    | .error _ => .error .rangeError
    | .ok (_, p) => .ok ({ high := high, low := low }, p)

/-- `parse_parameter_range`; an error of `parse_string` or `parse_comma` stays in `m_error`, which is returned at the
end. -/
def parseParameterRange (result : ParameterRange) (allowNoParameterRange : Bool) (p : Parser) :
    Except Error (ParameterRange × Parser) :=
  match p.checkEmptyParameter allowNoParameterRange with
  | .error e => .error e
  | .ok (true, p) => .ok (result, p)
  | .ok (false, p) => do
    let (_, p) ← p.parseChar 40 false
    let (str, p) ← p.parseString false false
    let (_, p) ← p.parseComma false
    let (range, p) ← p.parseRange result.range false true
    let (_, p) ← p.parseChar 41 false
    .ok ({ parameter := str, range := range }, p)

/-- The loop of `parse_parameter_range_list`; there is one `item` for all turns. -/
def rangeListLoop : Nat → ParameterRange → List ParameterRange → Parser → Except Error (List ParameterRange × Parser)
  | 0, _, result, p => .ok (result, p)
  | fuel + 1, item, result, p =>
    match p.parseComma true with
    | .error e => .error e
    | .ok (false, p) => .ok (result, p)
    | .ok (true, p) =>
      match p.parseParameterRange item false with
      | .error e => .error e
      | .ok (item, p) => rangeListLoop fuel item (result ++ [item]) p

/-- `parse_parameter_range_list` -/
def parseParameterRangeList (allowNoList : Bool) (p : Parser) : Except Error (List ParameterRange × Parser) :=
  match p.checkEmptyParameter allowNoList with
  | .error e => .error e
  | .ok (true, p) => .ok ([], p)
  | .ok (false, p) =>
    match p.parseParameterRange {} false with
    | .error e => .error e
    | .ok (item, p) => rangeListLoop p.eob item [item] p

end Parser

end Isix.Gsm
