import Isix.Properties.NumberText
import Isix.Properties.TinyPrintf

/-!
# Isix.Properties.IntegerText

The integer conversions of `tiny_vaprintf` against those of C99.  `Conversion` is
a conversion as it is written, `Conversion.standard` the text the standard asks
for.  Both are the same unless `-` and `0` stand together and there is something
to fill: the code then fills with zeros on the right.
-/

namespace Isix.Foundation.TinyPrintf

open Buffer (CString)

/-! ## conversions as they are written -/

inductive Spec
  | d
  | i
  | u
  | x
  | upperX
deriving DecidableEq, Repr

namespace Spec

def char : Spec → UInt8
  | .d => 100
  | .i => 105
  | .u => 117
  | .x => 120
  | .upperX => 88

def signed : Spec → Bool
  | .d | .i => true
  | _ => false

def base : Spec → Nat
  | .x | .upperX => 16
  | _ => 10

/-- The first digit above nine. -/
def letbase : Spec → Nat
  | .u | .upperX => 65
  | _ => 97

end Spec

def Modf.text : Modf → List UInt8
  | .hh => [104, 104]
  | .h => [104]
  | .n => []
  | .l => [108]
  | .ll => [108, 108]

/-- The flags `-` and `0`, a width (none is 0), a length modifier and a specifier. -/
structure Conversion where
  left : Bool
  zero : Bool
  width : Nat
  modf : Modf
  spec : Spec
deriving DecidableEq, Repr

namespace Conversion

def widthText (width : Nat) : List UInt8 := if width = 0 then [] else digitText 10 width

/-- What stands behind the `%`. -/
def tail (conv : Conversion) : List UInt8 :=
  (if conv.left then [45] else []) ++ ((if conv.zero then [48] else []) ++
    (widthText conv.width ++ (conv.modf.text ++ [conv.spec.char])))

theorem widthText_digits {width : Nat} {c : UInt8} (hc : c ∈ widthText width) : 48 ≤ c ∧ c ≤ 57 := by
  unfold widthText digitText at hc
  split at hc
  · cases hc
  · obtain ⟨d, hd, rfl⟩ := List.mem_map.mp (List.mem_reverse.mp hc)
    have hlt : d < 10 := Nat.digits_lt_base (by decide) hd
    interval_cases d <;> decide

theorem end_letters (conv : Conversion) : ∀ c ∈ conv.modf.text ++ [conv.spec.char], 88 ≤ c := by
  cases conv.modf <;> cases conv.spec <;> simp [Modf.text, Spec.char]

/-- The characters that a conversion may have behind its `-`. -/
theorem mem_behind_minus (conv : Conversion) : ∀ c ∈ (if conv.zero then [48] else []) ++
    (widthText conv.width ++ (conv.modf.text ++ [conv.spec.char])), 48 ≤ c := by
  intro c hc
  simp only [List.mem_append] at hc
  rcases hc with hc | hc | hc
  · split at hc
    · rw [List.mem_singleton.mp hc]
      decide
    · cases hc
  · exact (widthText_digits hc).1
  · exact UInt8.le_trans (by decide) (conv.end_letters c (List.mem_append.mpr hc))

theorem tail_nonzero (conv : Conversion) : ∀ c ∈ conv.tail, c ≠ 0 := by
  rintro c hc rfl
  rcases List.mem_append.mp hc with hc | hc
  · split at hc <;> simp at hc
  · exact absurd (conv.mem_behind_minus 0 hc) (by decide)

def format (conv : Conversion) : CString :=
  ⟨37 :: conv.tail, fun c hc => by
    rcases List.mem_cons.mp hc with rfl | hc
    · decide
    · exact conv.tail_nonzero c hc⟩

def kind (conv : Conversion) : Kind := if conv.modf = .ll then .dword else .word

/-- The bits of the argument the conversion looks at. -/
def bits (conv : Conversion) : Nat :=
  match conv.modf with
  | .hh => 8
  | .h => 16
  | .ll => 64
  | _ => 32

/-- The value of the argument, after the truncation. -/
def value (conv : Conversion) : Arg → Int
  | .word v => if conv.spec.signed then (v.setWidth conv.bits).toInt else (v.setWidth conv.bits).toNat
  | .dword v => if conv.spec.signed then v.toInt else v.toNat
  | _ => 0

end Conversion

/-! ## what C99 asks for -/

def numeral (letbase base n : Nat) : List UInt8 :=
  if n = 0 then [48] else ((Nat.digits base n).map (digitChar letbase)).reverse

def minus (v : Int) : List UInt8 := if v < 0 then [45] else []

namespace Conversion

/-- The characters that a value needs. -/
def needed (conv : Conversion) (v : Int) : List UInt8 := minus v ++ numeral conv.spec.letbase conv.spec.base v.natAbs

/-- The text of a value: with `-` it is filled with blanks on the right, else with `0` with zeros behind the
sign, else with blanks on the left. -/
def standard (conv : Conversion) (v : Int) : List UInt8 :=
  let fill := conv.width - (conv.needed v).length
  if conv.left then conv.needed v ++ List.replicate fill 32
  else if conv.zero then minus v ++ (List.replicate fill 48 ++ numeral conv.spec.letbase conv.spec.base v.natAbs)
  else List.replicate fill 32 ++ conv.needed v

end Conversion

/-! ## reading the conversion -/

variable {base letbase n u width : Nat} {ds : List Nat} {rest : List UInt8} {conv : Conversion}

theorem readWidth_digits (hds : ∀ d ∈ ds, d < 10) (h : Nat.ofDigits 10 ds < 2 ^ 31) :
    readWidth ((ds.map baseToDigit).reverse ++ rest) 0 = readWidth rest ((Nat.ofDigits 10 ds : Nat) : Int) := by
  induction ds generalizing rest with
  | nil => rfl
  | cons d ds ih =>
    have hd : d < 10 := hds d List.mem_cons_self
    have hsum : Nat.ofDigits 10 (d :: ds) = Nat.ofDigits 10 ds * 10 + d := by
      rw [Nat.ofDigits_cons]
      ring
    rw [hsum] at h ⊢
    obtain ⟨hrange, hvalue⟩ := baseToDigit_decimal hd
    have hrange' : 48 ≤ baseToDigit d ∧ baseToDigit d ≤ 57 := by
      rw [not_or] at hrange
      exact ⟨UInt8.not_lt.mp hrange.1, UInt8.not_lt.mp hrange.2⟩
    have hint : int ((Nat.ofDigits 10 ds : Nat) * 10 + (d : Nat)) = ((Nat.ofDigits 10 ds * 10 + d : Nat) : Int) := by
      rw [← int_eq h]
      push_cast
      rfl
    rw [List.map_cons, List.reverse_cons, List.append_assoc, List.singleton_append,
      ih (fun x hx => hds x (List.mem_cons_of_mem d hx)) (by omega), readWidth, if_pos hrange', hvalue, hint]

/-- Text that does not begin with a digit. -/
def NoDigit (rest : List UInt8) : Prop := ∀ c ∈ rest.head?, ¬(48 ≤ c ∧ c ≤ 57)

theorem readWidth_noDigit (h : NoDigit rest) (w : Int) : readWidth rest w = (w, rest) := by
  cases rest with
  | nil => rfl
  | cons c rest =>
    unfold readWidth
    rw [if_neg (h c rfl)]

theorem readWidth_widthText (h : NoDigit rest) (hw : width < 2 ^ 31) :
    readWidth (Conversion.widthText width ++ rest) 0 = ((width : Int), rest) := by
  unfold Conversion.widthText digitText
  split
  · rename_i h0
    rw [List.nil_append, readWidth_noDigit h, h0]
    rfl
  · have hofd : Nat.ofDigits 10 (Nat.digits 10 width) = width := Nat.ofDigits_digits 10 width
    rw [readWidth_digits (fun d hd => Nat.digits_lt_base (by decide) hd) (by rwa [hofd]), hofd, readWidth_noDigit h]

/-- A width does not begin with a zero. -/
theorem widthText_head (hz : ∀ c ∈ rest.head?, c ≠ 48) : ∀ c ∈ (Conversion.widthText width ++ rest).head?, c ≠ 48 := by
  unfold Conversion.widthText digitText
  split
  · exact hz
  · rename_i h0
    -- the first character is the highest digit
    have hne : Nat.digits 10 width ≠ [] := Nat.digits_ne_nil_iff_ne_zero.mpr h0
    obtain ⟨front, d, hd⟩ : ∃ front d, Nat.digits 10 width = front ++ [d] :=
      ⟨_, _, (List.dropLast_append_getLast hne).symm⟩
    have hlast : (Nat.digits 10 width).getLast hne ≠ 0 := Nat.getLast_digit_ne_zero 10 h0
    have hd0 : d ≠ 0 := by
      simp only [hd, List.getLast_append_singleton] at hlast
      exact hlast
    have hd10 : d < 10 := Nat.digits_lt_base (by decide) (hd ▸ by simp : d ∈ Nat.digits 10 width)
    intro c hc
    rw [hd, List.map_append, List.reverse_append] at hc
    obtain rfl : baseToDigit d = c := by simpa using hc
    interval_cases d <;> first | exact absurd rfl hd0 | decide

theorem readZeros_flag {zero : Bool} (hz : ∀ c ∈ rest.head?, c ≠ 48) :
    readZeros ((if zero then [48] else []) ++ rest) false = (zero, rest) := by
  have hstop : ∀ b, readZeros rest b = (b, rest) := by
    intro b
    cases rest with
    | nil => rfl
    | cons c rest =>
      unfold readZeros
      rw [if_neg (hz c rfl)]
  cases zero with
  | false => exact hstop false
  | true => exact hstop true

theorem readMinus_flag {left : Bool} (hm : ∀ c ∈ rest.head?, c ≠ 45) :
    readMinus ((if left then [45] else []) ++ rest) = (left, rest) := by
  cases left with
  | true => rfl
  | false =>
    unfold readMinus
    split
    · rename_i h
      have hrest : rest = 45 :: _ := h
      rw [hrest] at hm
      exact absurd rfl (hm 45 rfl)
    · rfl

theorem readConversion_tail (hw : conv.width < 2 ^ 31) :
    readConversion conv.tail = (⟨⟨conv.left, conv.zero⟩, conv.width, conv.modf, some conv.spec.char⟩, []) := by
  have hletters c (hc : c ∈ (conv.modf.text ++ [conv.spec.char]).head?) : 88 ≤ c :=
    conv.end_letters c (List.mem_of_head? hc)
  have hnoDigit : NoDigit (conv.modf.text ++ [conv.spec.char]) := fun c hc hd =>
    absurd (UInt8.le_trans (hletters c hc) hd.2) (by decide)
  have hzero : ∀ c ∈ (conv.modf.text ++ [conv.spec.char]).head?, c ≠ 48 := by
    rintro _ hc rfl
    exact absurd (hletters 48 hc) (by decide)
  have hmodf : readModf (conv.modf.text ++ [conv.spec.char]) = (conv.modf, [conv.spec.char]) := by
    cases conv.modf <;> cases conv.spec <;> rfl
  unfold readConversion Conversion.tail
  rw [readMinus_flag fun c hc h => absurd (h ▸ conv.mem_behind_minus c (List.mem_of_head? hc)) (by decide)]
  dsimp only
  rw [readZeros_flag (widthText_head hzero)]
  rw [readWidth_widthText hnoDigit hw]
  rw [hmodf]
  rfl

theorem pieces_format (hw : conv.width < 2 ^ 31) :
    pieces conv.format = [.conversion ⟨⟨conv.left, conv.zero⟩, conv.width, conv.modf, some conv.spec.char⟩] := by
  have hhead : conv.tail.head? ≠ some 37 := by
    intro h
    unfold Conversion.tail at h
    cases hl : conv.left with
    | true => simp [hl] at h
    | false =>
      rw [hl] at h
      exact absurd (conv.mem_behind_minus 37 (List.mem_of_head? h)) (by decide)
  have hlen : ∃ k, conv.format.val.length + 1 = k + 2 := ⟨conv.tail.length, rfl⟩
  obtain ⟨k, hk⟩ := hlen
  unfold pieces
  rw [hk]
  unfold Conversion.format piecesFrom
  rw [if_neg (by decide), if_neg hhead, readConversion_tail hw]
  rfl

/-! ## the value and its digits -/

theorem digitsLoop_eq {fuel : Nat} (hb : 2 ≤ base) (hf : u < fuel) (s : List UInt8) :
    digitsLoop base letbase fuel u s = ((Nat.digits base u).map (digitChar letbase)).reverse ++ s := by
  induction fuel generalizing u s with
  | zero => cases hf
  | succ fuel ih =>
    unfold digitsLoop
    split
    · rename_i h0
      rw [h0, Nat.digits_zero]
      rfl
    · rename_i h0
      have hlt : u / base < u := Nat.div_lt_self (by omega) hb
      have hdigits : Nat.digits base u = u % base :: Nat.digits base (u / base) := Nat.digits_def' (by omega) (by omega)
      rw [ih (by omega), hdigits, List.map_cons, List.reverse_cons, List.append_assoc]
      rfl

/-- The word that `printi` gets stands for the value `v`. -/
structure Shown (i : BitVec 64) (base : Nat) (sign : Bool) (v : Int) : Prop where
  zero : i = 0 ↔ v = 0
  neg : (sign && base == 10 && i.msb) = decide (v < 0)
  digits : (if (sign && base == 10 && i.msb) then (-i).toNat else i.toNat) = v.natAbs

theorem shown_signed {i : BitVec 64} {v : Int} (h : i.toInt = v) : Shown i 10 true v := by
  have hmsb : i.msb = decide (v < 0) := by
    rw [BitVec.msb_eq_toInt, h]
  have hzero : i = 0 ↔ v = 0 := by
    rw [← h]
    exact ⟨fun h0 => by rw [h0]; rfl, fun h0 => BitVec.eq_of_toInt_eq (by rw [h0]; rfl)⟩
  refine ⟨hzero, by rw [hmsb]; rfl, ?_⟩
  have hcond : (true && (10 : Nat) == 10 && i.msb) = decide (v < 0) := by rw [hmsb]; rfl
  rw [hcond]
  have hlt := i.isLt
  have hint : i.toInt = if 2 * i.toNat < 2 ^ 64 then (i.toNat : Int) else (i.toNat : Int) - (2 ^ 64 : Nat) :=
    BitVec.toInt_eq_toNat_cond i
  rw [h] at hint
  by_cases hv : v < 0
  · rw [decide_eq_true hv, if_pos rfl, BitVec.toNat_neg]
    split at hint <;> omega
  · rw [decide_eq_false hv, if_neg (by decide)]
    split at hint <;> omega

theorem shown_unsigned {i : BitVec 64} {v : Int} (h : (i.toNat : Int) = v) : Shown i base false v := by
  have hneg : decide (v < 0) = false := decide_eq_false (by omega)
  have hzero : i = 0 ↔ v = 0 := by
    rw [← h]
    exact ⟨fun h0 => by rw [h0]; rfl, fun h0 => BitVec.eq_of_toNat_eq (by simpa using h0)⟩
  refine ⟨hzero, by rw [hneg]; rfl, ?_⟩
  simp only [Bool.false_and, Bool.false_eq_true, if_false]
  omega

theorem signedArg_value {arg : Arg} (harg : arg.kind = conv.kind) (hs : conv.spec.signed = true) :
    ∃ i, signedArg conv.modf [arg] = some (i, []) ∧ i.toInt = conv.value arg := by
  obtain ⟨left, zero, width, modf, spec⟩ := conv
  unfold Conversion.value
  simp only [hs, if_true]
  cases modf with
  | hh | h =>
    cases arg with
    | word v => exact ⟨_, rfl, BitVec.toInt_signExtend_of_le (by decide)⟩
    | _ => cases harg
  | n | l =>
    cases arg with
    | word v =>
      exact ⟨_, rfl, (BitVec.toInt_signExtend_of_le (by decide)).trans (congrArg BitVec.toInt (BitVec.setWidth_eq v).symm)⟩
    | _ => cases harg
  | ll =>
    cases arg with
    | dword v => exact ⟨_, rfl, rfl⟩
    | _ => cases harg

theorem unsignedArg_value {arg : Arg} (harg : arg.kind = conv.kind) (hs : conv.spec.signed = false) :
    ∃ i, unsignedArg conv.modf [arg] = some (i, []) ∧ (i.toNat : Int) = conv.value arg := by
  obtain ⟨left, zero, width, modf, spec⟩ := conv
  unfold Conversion.value
  simp only [hs, Bool.false_eq_true, if_false]
  cases modf with
  | hh | h =>
    cases arg with
    | word v => exact ⟨_, rfl, congrArg Int.ofNat (BitVec.toNat_setWidth_of_le (by decide))⟩
    | _ => cases harg
  | n | l =>
    cases arg with
    | word v =>
      exact ⟨_, rfl, congrArg Int.ofNat ((BitVec.toNat_setWidth_of_le (by decide)).trans
        (congrArg BitVec.toNat (BitVec.setWidth_eq v).symm))⟩
    | _ => cases harg
  | ll =>
    cases arg with
    | dword v => exact ⟨_, rfl, rfl⟩
    | _ => cases harg

/-- The argument is read as the value of the conversion. -/
theorem convText_value {arg : Arg} (harg : arg.kind = conv.kind) :
    ∃ i, convText ⟨⟨conv.left, conv.zero⟩, conv.width, conv.modf, some conv.spec.char⟩ conv.spec.char [arg] =
        some (integerText i conv.spec.base conv.spec.signed conv.width ⟨conv.left, conv.zero⟩ conv.spec.letbase, []) ∧
      Shown i conv.spec.base conv.spec.signed (conv.value arg) := by
  cases hs : conv.spec.signed with
  | true =>
    obtain ⟨i, hi, hv⟩ := signedArg_value harg hs
    have hbase : conv.spec.base = 10 := by cases h : conv.spec <;> rw [h] at hs <;> first | rfl | exact absurd hs (by decide)
    refine ⟨i, ?_, hbase ▸ shown_signed hv⟩
    unfold convText
    cases h : conv.spec <;> rw [h] at hs <;> first | exact absurd hs (by decide) | simp [Spec.char, Spec.base, Spec.letbase, hi]
  | false =>
    obtain ⟨i, hi, hv⟩ := unsignedArg_value harg hs
    refine ⟨i, ?_, shown_unsigned hv⟩
    unfold convText
    cases h : conv.spec <;> rw [h] at hs <;> first | exact absurd hs (by decide) | simp [Spec.char, Spec.base, Spec.letbase, hi]

/-! ## the text -/

/-- What is printed: with `-` the fill on the right is of zeros, too. -/
def Conversion.printed (conv : Conversion) (v : Int) : List UInt8 :=
  if conv.left then
    conv.needed v ++ List.replicate (conv.width - (conv.needed v).length) (if conv.zero then 48 else 32)
  else conv.standard v

/-- With both flags there is nothing to fill. -/
def Conversion.Regular (conv : Conversion) (v : Int) : Prop :=
  ¬(conv.left = true ∧ conv.zero = true) ∨ conv.width ≤ (conv.needed v).length

/-- The fill of zeros on the right is not that of the standard. -/
theorem printed_standard (v : Int) : conv.printed v = conv.standard v ↔ conv.Regular v := by
  unfold Conversion.printed Conversion.Regular
  cases hleft : conv.left with
  | false => simp
  | true =>
    rw [Conversion.standard, if_pos hleft, if_pos rfl, List.append_cancel_left_eq]
    cases conv.zero with
    | false => simp
    | true => simp [List.replicate_inj, Nat.sub_eq_zero_iff_le]

theorem spec_base (spec : Spec) : 2 ≤ spec.base := by cases spec <;> decide

/-- `prints` of the characters a value needs, when zeros do not go behind a sign. -/
theorem padded_needed {v : Int} (hv : 0 ≤ v ∨ conv.zero = false ∨ conv.width = 0) :
    padded (conv.needed v) conv.width ⟨conv.left, conv.zero⟩ = conv.printed v := by
  have hfill : ((conv.width : Int) - ((conv.needed v).length : Nat)).toNat = conv.width - (conv.needed v).length := by omega
  unfold padded Conversion.printed Conversion.standard
  rw [hfill]
  cases hleft : conv.left with
  | true => rfl
  | false =>
    simp only [Bool.false_eq_true, if_false]
    cases hzero : conv.zero with
    | false => rfl
    | true =>
      simp only [if_true]
      rcases hv with hv | hv | hv
      · have hminus : minus v = [] := if_neg (by omega)
        unfold Conversion.needed
        rw [hminus, List.nil_append, List.nil_append]
      · rw [hzero] at hv
        cases hv
      · rw [hv, Nat.zero_sub]
        rfl

theorem integerText_printed {i : BitVec 64} {v : Int} (hi : Shown i conv.spec.base conv.spec.signed v)
    (hw : conv.width < 2 ^ 31) :
    integerText i conv.spec.base conv.spec.signed conv.width ⟨conv.left, conv.zero⟩ conv.spec.letbase = conv.printed v := by
  have hb := spec_base conv.spec
  unfold integerText
  dsimp only
  by_cases h0 : v = 0
  · have hneeded : conv.needed v = [48] := by rw [h0]; rfl
    rw [if_pos (hi.zero.mpr h0), ← hneeded]
    exact padded_needed (.inl (by omega))
  rw [if_neg (fun h => h0 (hi.zero.mp h)), hi.digits, hi.neg, digitsLoop_eq hb (Nat.lt_succ_self _), List.append_nil]
  have hnum : ((Nat.digits conv.spec.base v.natAbs).map (digitChar conv.spec.letbase)).reverse =
      numeral conv.spec.letbase conv.spec.base v.natAbs := by
    unfold numeral
    rw [if_neg (by omega)]
  rw [hnum]
  by_cases hneg : v < 0
  · have hneeded : conv.needed v = 45 :: numeral conv.spec.letbase conv.spec.base v.natAbs := by
      unfold Conversion.needed minus
      rw [if_pos hneg]
      rfl
    rw [decide_eq_true hneg, if_pos rfl]
    split
    · -- the sign goes out before the zeros
      rename_i hzero
      have hpos : 0 < conv.width := by omega
      have hint : int ((conv.width : Int) - 1) = ((conv.width - 1 : Nat) : Int) := by
        rw [← int_eq (by omega : conv.width - 1 < 2 ^ 31)]
        congr 1
        omega
      have hz : conv.zero = true := hzero.2
      have hlen : (conv.needed v).length = (numeral conv.spec.letbase conv.spec.base v.natAbs).length + 1 := by
        rw [hneeded, List.length_cons]
      have hfill : (((conv.width - 1 : Nat) : Int) - ((numeral conv.spec.letbase conv.spec.base v.natAbs).length : Nat)).toNat =
          conv.width - (conv.needed v).length := by omega
      have hminus : minus v = [45] := if_pos hneg
      unfold padded Conversion.printed Conversion.standard
      dsimp only
      rw [hint, hfill, hz]
      cases hleft : conv.left with
      | true =>
        rw [if_pos rfl, if_pos rfl, hneeded]
        rfl
      | false =>
        simp only [Bool.false_eq_true, if_false, if_true]
        rw [hminus]
        rfl
    · rename_i hzero
      have hcase : conv.zero = false ∨ conv.width = 0 := by
        cases hz : conv.zero with
        | false => exact .inl rfl
        | true => exact .inr (by_contra fun h => hzero ⟨by omega, hz⟩)
      rw [← hneeded]
      exact padded_needed (.inr hcase)
  · have hneeded : conv.needed v = numeral conv.spec.letbase conv.spec.base v.natAbs := by
      unfold Conversion.needed minus
      rw [if_neg hneg]
      rfl
    rw [decide_eq_false hneg, if_neg (by decide), ← hneeded]
    exact padded_needed (.inl (by omega))

theorem length_standard (v : Int) : (conv.standard v).length = max conv.width (conv.needed v).length := by
  unfold Conversion.standard Conversion.needed
  split_ifs
  all_goals
    simp only [List.length_append, List.length_replicate]
    omega

/-! ## reading the text back -/

def digitValue (base : Nat) (c : UInt8) : Option Nat :=
  let d := if 48 ≤ c ∧ c ≤ 57 then c.toNat - 48
    else if 97 ≤ c ∧ c ≤ 122 then c.toNat - 87
    else if 65 ≤ c ∧ c ≤ 90 then c.toNat - 55
    else base
  if d < base then some d else none

/-- The digits at the front of a text, onto a value read so far. -/
def parseDigits (base : Nat) : List UInt8 → Nat → Nat
  | [], acc => acc
  | c :: text, acc =>
    match digitValue base c with
    | none => acc
    | some d => parseDigits base text (acc * base + d)

/-- Blanks, a sign and digits. -/
def parseText (base : Nat) (text : List UInt8) : Int :=
  let text := text.dropWhile (· = 32)
  if text.head? = some 45 then -parseDigits base text.tail 0 else parseDigits base text 0

section

variable (spec : Spec)

include spec

theorem digitValue_digitChar {d : Nat} (hd : d < spec.base) :
    digitValue spec.base (digitChar spec.letbase d) = some d := by
  have h16 : d < 16 := by
    have : spec.base ≤ 16 := by cases spec <;> decide
    omega
  cases spec <;> interval_cases d <;> first | rfl | (exact absurd hd (by decide))

theorem parseDigits_digits (hds : ∀ d ∈ ds, d < spec.base) (acc : Nat) :
    parseDigits spec.base ((ds.map (digitChar spec.letbase)).reverse ++ rest) acc =
      parseDigits spec.base rest (acc * spec.base ^ ds.length + Nat.ofDigits spec.base ds) := by
  induction ds generalizing rest with
  | nil => simp
  | cons d ds ih =>
    rw [List.map_cons, List.reverse_cons, List.append_assoc, List.singleton_append,
      ih (fun x hx => hds x (List.mem_cons_of_mem d hx)), parseDigits, digitValue_digitChar spec (hds d List.mem_cons_self)]
    dsimp only
    congr 1
    rw [Nat.ofDigits_cons, List.length_cons]
    ring

theorem parseDigits_numeral (n : Nat) :
    parseDigits spec.base (numeral spec.letbase spec.base n ++ rest) 0 = parseDigits spec.base rest n := by
  unfold numeral
  split
  · rename_i h0
    have hzero : digitValue spec.base 48 = some 0 := by cases spec <;> rfl
    rw [List.singleton_append, parseDigits, hzero, h0]
    simp
  · rw [parseDigits_digits spec fun d hd => Nat.digits_lt_base (spec_base spec) hd, Nat.ofDigits_digits]
    simp

theorem parseDigits_zeros (n : Nat) :
    parseDigits spec.base (List.replicate n 48 ++ rest) 0 = parseDigits spec.base rest 0 := by
  have hzero : digitValue spec.base 48 = some 0 := by cases spec <;> rfl
  induction n with
  | zero => rfl
  | succ n ih =>
    rw [List.replicate_succ, List.cons_append, parseDigits, hzero]
    dsimp only
    rw [Nat.zero_mul, Nat.add_zero, ih]

theorem parseDigits_blanks (n acc : Nat) : parseDigits spec.base (List.replicate n 32) acc = acc := by
  have hblank : digitValue spec.base 32 = none := by cases spec <;> rfl
  cases n with
  | zero => rfl
  | succ n => rw [List.replicate_succ, parseDigits, hblank]

theorem numeral_digits (n : Nat) : ∀ c ∈ numeral spec.letbase spec.base n, c ≠ 32 ∧ c ≠ 45 := by
  intro c hc
  unfold numeral at hc
  split at hc
  · rw [List.mem_singleton.mp hc]
    decide
  · obtain ⟨d, hd, rfl⟩ := List.mem_map.mp (List.mem_reverse.mp hc)
    have hlt : d < spec.base := Nat.digits_lt_base (spec_base spec) hd
    have hbase : spec.base ≤ 16 := by cases spec <;> decide
    have h16 : d < 16 := by omega
    have hlet : spec.letbase = 97 ∨ spec.letbase = 65 := by cases spec <;> decide
    rcases hlet with hlet | hlet <;> rw [hlet] <;> interval_cases d <;> decide

/-- A numeral behind `z` zeros and before `b` blanks begins with a digit. -/
theorem head_numeral (n z : Nat) :
    ∃ c text, List.replicate z 48 ++ (numeral spec.letbase spec.base n ++ rest) = c :: text ∧ c ≠ 32 ∧ c ≠ 45 := by
  cases z with
  | succ z => exact ⟨48, _, rfl, by decide, by decide⟩
  | zero =>
    cases hn : numeral spec.letbase spec.base n with
    | nil =>
      unfold numeral at hn
      split at hn
      · cases hn
      · rename_i h0
        exact absurd (Nat.digits_eq_nil_iff_eq_zero.mp (List.map_eq_nil_iff.mp (List.reverse_eq_nil_iff.mp hn))) h0
    | cons c text =>
      have := numeral_digits spec n c (hn ▸ List.mem_cons_self)
      exact ⟨c, _, rfl, this⟩

/-- A sign, zeros, the numeral and blanks are read as the value. -/
theorem parseText_core (v : Int) (k z b : Nat) :
    parseText spec.base (List.replicate k 32 ++ (minus v ++ (List.replicate z 48 ++
      (numeral spec.letbase spec.base v.natAbs ++ List.replicate b 32)))) = v := by
  have hdigits : parseDigits spec.base (List.replicate z 48 ++ (numeral spec.letbase spec.base v.natAbs ++
      List.replicate b 32)) 0 = v.natAbs := by
    rw [parseDigits_zeros, parseDigits_numeral, parseDigits_blanks]
  have hblanks : ∀ text : List UInt8, text.head? ≠ some 32 →
      (List.replicate k 32 ++ text).dropWhile (fun c => decide (c = 32)) = text := by
    intro text htext
    rw [List.dropWhile_append_of_pos (fun c hc => by rw [List.eq_of_mem_replicate hc]; rfl)]
    cases text with
    | nil => rfl
    | cons c text =>
      have hc : c ≠ 32 := fun h => htext (congrArg some h)
      rw [List.dropWhile_cons_of_neg (by simpa using hc)]
  unfold parseText
  dsimp only
  by_cases hv : v < 0
  · have hminus : minus v = [45] := if_pos hv
    rw [hminus, List.singleton_append, hblanks _ (by simp), List.head?_cons, if_pos rfl, List.tail_cons, hdigits]
    omega
  · have hminus : minus v = [] := if_neg hv
    obtain ⟨c, text, htext, hc32, hc45⟩ : ∃ c text, List.replicate z 48 ++ (numeral spec.letbase spec.base v.natAbs ++
        List.replicate b 32) = c :: text ∧ c ≠ 32 ∧ c ≠ 45 := head_numeral spec v.natAbs z
    rw [hminus, List.nil_append, hblanks _ (by rw [htext]; simpa using hc32), if_neg (by rw [htext]; simpa using hc45),
      hdigits]
    omega

end

theorem parseText_standard (v : Int) : parseText conv.spec.base (conv.standard v) = v := by
  unfold Conversion.standard Conversion.needed
  generalize conv.width - (minus v ++ numeral conv.spec.letbase conv.spec.base v.natAbs).length = fill
  split_ifs
  · simpa using parseText_core conv.spec v 0 0 fill
  · simpa using parseText_core conv.spec v 0 fill 0
  · simpa using parseText_core conv.spec v fill 0 0

/-- **Integer conversions**: for every conversion and every argument of its type the text is that of C99, which
reads back as the value, is as long as the width and the value need, and has blanks behind a number adjusted to
the left, if and only if not both `-` and `0` are given with something to fill. -/
theorem integer_conversion_standard (conv : Conversion) (arg : Arg) (harg : arg.kind = conv.kind)
    (hw : conv.width < 2 ^ 31) :
    let v := conv.value arg
    ((tinyPrintf conv.format [arg]).map Prod.snd = some (conv.standard v) ∧
      parseText conv.spec.base (conv.standard v) = v ∧
      (conv.standard v).length = max conv.width (conv.needed v).length ∧
      (conv.left = true → ∃ fill, conv.standard v = conv.needed v ++ List.replicate fill 32)) ↔ conv.Regular v := by
  obtain ⟨i, hconv, hi⟩ := convText_value harg
  have htext : textOf (pieces conv.format) [arg] = some (conv.printed (conv.value arg)) := by
    rw [pieces_format hw, textOf]
    dsimp only
    rw [hconv, integerText_printed hi hw]
    simp [textOf]
  have hprint : (tinyPrintf conv.format [arg]).map Prod.snd = some (conv.printed (conv.value arg)) := by
    rw [tinyPrintf_eq htext]
    rfl
  refine ⟨fun h => ?_, fun hreg => ⟨?_, parseText_standard _, length_standard _, fun hleft => ?_⟩⟩
  · exact (printed_standard _).mp (Option.some.inj (hprint.symm.trans h.1))
  · rw [hprint, (printed_standard _).mpr hreg]
  · unfold Conversion.standard
    rw [if_pos hleft]
    exact ⟨_, rfl⟩

/-- `"%06d"` -/
def sixZeros : Conversion := ⟨false, true, 6, .n, .d⟩

theorem integer_conversion_negative :
    let v := sixZeros.value (.word (-42))
    (tinyPrintf sixZeros.format [.word (-42)]).map Prod.snd = some (sixZeros.standard v) ∧
      parseText sixZeros.spec.base (sixZeros.standard v) = v ∧
      (sixZeros.standard v).length = max sixZeros.width (sixZeros.needed v).length ∧
      (sixZeros.left = true → ∃ fill, sixZeros.standard v = sixZeros.needed v ++ List.replicate fill 32) :=
  (integer_conversion_standard sixZeros (.word (-42)) (by decide) (by decide)).mpr (.inl (by decide))

/-- `"%-05d"` -/
def bothFlags : Conversion := ⟨true, true, 5, .n, .d⟩

/-- With both flags 42 is printed as `42000`; the standard asks for `42` and three blanks. -/
theorem integer_conversion_both_flags :
    (tinyPrintf bothFlags.format [.word 42]).map Prod.snd = some [52, 50, 48, 48, 48] ∧
      bothFlags.standard (bothFlags.value (.word 42)) = [52, 50, 32, 32, 32] ∧
      parseText bothFlags.spec.base [52, 50, 48, 48, 48] = 42000 := by
  decide +kernel

end Isix.Foundation.TinyPrintf
