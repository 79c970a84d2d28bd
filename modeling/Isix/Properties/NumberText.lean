import Isix.Foundation.Utils
import Mathlib.Data.Nat.Digits.Lemmas

/-!
# Isix.Properties.NumberText

`fnd_uitoa` writes the digits of a value right-aligned in a field, and
`fnd_atoui` reads them back.  The loops write runs of bytes (`Buf.write`); the
digits of the value come from `Nat.digits`, the lowest first, and the in-place
reversal turns them around.

A zero in an empty field writes before the buffer.
-/

namespace Isix.Foundation

open Buffer (Buf IsString)
open Ring (slice)

variable {str base val digits fuel : Nat} {fill : UInt8} {b : Buf}

/-! ## the loops -/

theorem digitLoop_eq (hb : 2 ≤ base) (hf : val < fuel) :
    digitLoop str base fuel val digits b =
      some (digits + (Nat.digits base val).length, b.write (str + digits) ((Nat.digits base val).map baseToDigit)) := by
  induction fuel generalizing val digits b with
  | zero => cases hf
  | succ fuel ih =>
    unfold digitLoop
    rcases Nat.eq_zero_or_pos val with rfl | hpos
    · simp [Buf.write]
    · have hlt : val / base < val := Nat.div_lt_self hpos hb
      rw [if_pos hpos, ih (by omega), Nat.digits_def' (by omega) hpos]
      simp only [List.length_cons, List.map_cons, Buf.write, Nat.add_assoc, Nat.add_comm 1]

theorem fillLoop_eq (i : Nat) :
    fillLoop str fill i digits b = (digits + i, b.write (str + digits) (List.replicate i fill)) := by
  induction i generalizing digits b with
  | zero => rfl
  | succ i ih =>
    rw [fillLoop, ih, List.replicate_succ, Buf.write]
    simp only [Nat.add_assoc, Nat.add_comm 1]

/-! ## the reversal -/

/-- Three exclusive ors exchange two bytes. -/
theorem xor_swap (x y : UInt8) : y ^^^ (x ^^^ y) = x ∧ x ^^^ y ^^^ x = y := by
  constructor
  · rw [UInt8.xor_comm x y, ← UInt8.xor_assoc, UInt8.xor_self, UInt8.zero_xor]
  · rw [UInt8.xor_comm x y, UInt8.xor_assoc, UInt8.xor_self, UInt8.xor_zero]

theorem strrevLoop_mem {p1 p2 : Nat} (hf : p2 < p1 + fuel) (q : Nat) :
    (strrevLoop fuel p1 p2 b).mem q = if p1 ≤ q ∧ q ≤ p2 then b.mem (p1 + p2 - q) else b.mem q := by
  induction fuel generalizing p1 p2 b with
  | zero =>
    rw [strrevLoop, if_neg (by omega)]
  | succ fuel ih =>
    unfold strrevLoop
    split
    · rename_i hlt
      have hne : p1 ≠ p2 := by omega
      obtain ⟨hx, hy⟩ := xor_swap (b.mem p1) (b.mem p2)
      -- what the three writes leave
      have hswap : ∀ q, ((((b.put p1 (b.mem p1 ^^^ b.mem p2)).put p2 (b.mem p2 ^^^ (b.mem p1 ^^^ b.mem p2))).put p1
          ((b.mem p1 ^^^ b.mem p2) ^^^ (b.mem p2 ^^^ (b.mem p1 ^^^ b.mem p2)))).mem q) =
            if q = p1 then b.mem p2 else if q = p2 then b.mem p1 else b.mem q := by
        intro q
        rw [hx, hy]
        by_cases h1 : q = p1
        · rw [h1, Buffer.put_self, if_pos rfl]
        · rw [Buffer.put_of_ne h1, if_neg h1]
          by_cases h2 : q = p2
          · rw [h2, Buffer.put_self, if_pos rfl]
          · rw [Buffer.put_of_ne h2, Buffer.put_of_ne h1, if_neg h2]
      simp only [Buffer.put_self, Buffer.put_of_ne hne, Buffer.put_of_ne (Ne.symm hne)]
      rw [ih (by omega), hswap, hswap]
      by_cases hin : p1 ≤ q ∧ q ≤ p2
      · rw [if_pos hin]
        by_cases h1 : q = p1
        · rw [if_neg (by omega), if_pos h1, h1, show p1 + p2 - p1 = p2 by omega]
        · by_cases h2 : q = p2
          · rw [if_neg (by omega), if_neg h1, if_pos h2, h2, show p1 + p2 - p2 = p1 by omega]
          · rw [if_pos (by omega), if_neg (by omega), if_neg (by omega), show p1 + 1 + (p2 - 1) - q = p1 + p2 - q by omega]
      · rw [if_neg hin, if_neg (by omega), if_neg (by omega), if_neg (by omega)]
    · rename_i hge
      by_cases hin : p1 ≤ q ∧ q ≤ p2
      · rw [if_pos hin, show p1 + p2 - q = q by omega]
      · rw [if_neg hin]

theorem strrevLoop_touched {p1 p2 : Nat} {q : Nat} (h : q ∈ (strrevLoop fuel p1 p2 b).touched) :
    p1 ≤ q ∧ q ≤ p2 ∨ q ∈ b.touched := by
  induction fuel generalizing p1 p2 b with
  | zero => exact .inr h
  | succ fuel ih =>
    unfold strrevLoop at h
    split at h
    · rename_i hlt
      rcases ih h with h | h
      · exact .inl (by omega)
      · simp only [Buffer.mem_touched_put] at h
        rcases h with rfl | rfl | rfl | h
        · exact .inl (by omega)
        · exact .inl (by omega)
        · exact .inl (by omega)
        · exact .inr h
    · exact .inr h

/-- What `strrev` does to a text that does not begin with a zero. -/
structure Reversed (str len : Nat) (b b' : Buf) : Prop where
  bytes : slice str len b'.mem = (slice str len b.mem).reverse
  outside : ∀ q, q < str ∨ str + len ≤ q → b'.mem q = b.mem q
  touched : ∀ q ∈ b'.touched, str ≤ q ∧ q < str + len ∨ q ∈ b.touched

theorem strrev_reversed {len : Nat} (hlen : 0 < len) (hb : b.mem str ≠ 0) : Reversed str len b (strrev str len b) := by
  unfold strrev
  rw [if_neg hb]
  have hmem : ∀ q, (strrevLoop len str (str + len - 1) b).mem q =
      if str ≤ q ∧ q ≤ str + len - 1 then b.mem (str + (str + len - 1) - q) else b.mem q :=
    strrevLoop_mem (by omega)
  refine ⟨?_, fun q hq => ?_, fun q hq => ?_⟩
  · apply List.ext_getElem
    · simp [slice]
    · intro i h₁ h₂
      have hi : i < len := by simpa [slice] using h₁
      have hrev : (slice str len b.mem).reverse.get ⟨i, h₂⟩ = b.mem (str + (len - 1 - i)) := by
        simp [slice]
      have hself : (slice str len (strrevLoop len str (str + len - 1) b).mem).get ⟨i, h₁⟩ =
          (strrevLoop len str (str + len - 1) b).mem (str + i) := by simp [slice]
      have hgoal := hself.trans ((hmem (str + i)).trans (if_pos (by omega)))
      rw [show str + (str + len - 1) - (str + i) = str + (len - 1 - i) by omega] at hgoal
      exact hgoal.trans hrev.symm
  · rw [hmem q, if_neg (by omega)]
  · rcases strrevLoop_touched hq with h | h
    · exact .inl (by omega)
    · exact .inr h

/-! ## the text -/

/-- The digits of `val`, the highest first; a zero has one. -/
def digitText (base val : Nat) : List UInt8 :=
  if val = 0 then [48] else ((Nat.digits base val).map baseToDigit).reverse

/-- `text` right-aligned in a field of at least `fmt` characters. -/
def field (fmt : Nat) (fill : UInt8) (text : List UInt8) : List UInt8 :=
  List.replicate (fmt - text.length) fill ++ text

theorem length_field (fmt : Nat) (fill : UInt8) (text : List UInt8) : (field fmt fill text).length = max fmt text.length := by
  simp only [field, List.length_append, List.length_replicate]
  omega

theorem baseToDigit_ne_zero {digit : Nat} (h : digit < 36) : baseToDigit digit ≠ 0 := by
  interval_cases digit <;> decide

theorem digitText_ne_zero (hb : 2 ≤ base) (hb' : base ≤ 36) : ∀ c ∈ digitText base val, c ≠ 0 := by
  intro c hc
  unfold digitText at hc
  split at hc
  · rw [List.mem_singleton.mp hc]
    decide
  · obtain ⟨digit, hd, rfl⟩ := List.mem_map.mp (List.mem_reverse.mp hc)
    have hlt : digit < base := Nat.digits_lt_base hb hd
    exact baseToDigit_ne_zero (by omega)

/-- What the call leaves of a buffer: the text as a string, and nothing written behind its terminator. -/
structure Printed (str : Nat) (text : List UInt8) (b b' : Buf) : Prop where
  string : IsString b'.mem str text
  touched : ∀ q ∈ b'.touched, str ≤ q ∧ q ≤ str + text.length ∨ q ∈ b.touched

/-- The bytes written in reverse, ended and turned around. -/
theorem printed_of_reversed {l : List UInt8} (hl : l ≠ []) (hz : ∀ c ∈ l, c ≠ 0) :
    Printed str l.reverse b (strrev str l.length ((b.write str l).put (str + l.length) 0)) := by
  have hpos : 0 < l.length := List.length_pos_iff.mpr hl
  have hslice : slice str l.length ((b.write str l).put (str + l.length) 0).mem = l := by
    rw [Buffer.slice_put_outside (.inr (Nat.le_refl _)), Buffer.slice_write]
  have hhead : ((b.write str l).put (str + l.length) 0).mem str ≠ 0 := by
    rw [Buffer.put_of_ne (by omega)]
    have h0 := Buffer.write_inside (p := str) (b := b) 0 hpos
    rw [Nat.add_zero] at h0
    rw [h0]
    exact hz _ (List.get_mem ..)
  have hrev := strrev_reversed hpos hhead
  refine ⟨⟨?_, ?_, fun c hc => hz c (List.mem_reverse.mp hc)⟩, fun q hq => ?_⟩
  · rw [List.length_reverse, hrev.bytes, hslice]
  · rw [List.length_reverse, hrev.outside _ (.inr (Nat.le_refl _)), Buffer.put_self]
  · rw [List.length_reverse]
    rcases hrev.touched q hq with h | h
    · exact .inl (by omega)
    · rcases Buffer.mem_touched_put.mp h with rfl | h
      · exact .inl (by omega)
      · rcases Buffer.mem_touched_write.mp h with h | h
        · exact .inl (by omega)
        · exact .inr h

theorem slice_succ {n : Nat} {mem : Nat → UInt8} : slice str (n + 1) mem = slice str n mem ++ [mem (str + n)] := by
  simp [slice, List.range_succ]

theorem Printed.last {l : List UInt8} {c : UInt8} {b' : Buf} (h : Printed str (l ++ [c]) b b') :
    b'.mem (str + l.length) = c := by
  have hbytes := h.string.bytes
  rw [List.length_append, List.length_singleton, slice_succ] at hbytes
  exact List.singleton_inj.mp (List.append_inj hbytes (by simp [slice])).2

/-- The last character is replaced. -/
theorem Printed.setLast {l : List UInt8} {c c' : UInt8} {b' : Buf} (h : Printed str (l ++ [c]) b b') (hc : c' ≠ 0) :
    Printed str (l ++ [c']) b (b'.put (str + l.length) c') := by
  have hbytes := h.string.bytes
  have hzero := h.string.zero
  rw [List.length_append, List.length_singleton] at hbytes hzero
  refine ⟨⟨?_, ?_, fun x hx => ?_⟩, fun q hq => ?_⟩
  · rw [slice_succ] at hbytes
    have hfront : slice str l.length b'.mem = l := (List.append_inj hbytes (by simp [slice])).1
    rw [List.length_append, List.length_singleton, slice_succ, Buffer.slice_put_outside (.inr (Nat.le_refl _)), hfront,
      Buffer.put_self]
  · rw [List.length_append, List.length_singleton, Buffer.put_of_ne (by omega), hzero]
  · rcases List.mem_append.mp hx with hx | hx
    · exact h.string.nonzero x (List.mem_append_left _ hx)
    · rw [List.mem_singleton.mp hx]
      exact hc
  · rcases Buffer.mem_touched_put.mp hq with rfl | hq
    · left
      simp
    · have := h.touched q hq
      simpa using this

/-- The digits, the lowest first, and the fill behind them. -/
def reversedField (fmt : Nat) (fill : UInt8) (base val : Nat) : List UInt8 :=
  (Nat.digits base val).map baseToDigit ++ List.replicate (fmt - (Nat.digits base val).length) fill

/-- What stands in memory before the repair of a zero. -/
def unrepaired (str fmt : Nat) (fill : UInt8) (base val : Nat) (b : Buf) : Buf :=
  let l := reversedField fmt fill base val
  strrev str l.length ((b.write str l).put (str + l.length) 0)

theorem fndUitoa_eq {fmt : Nat} (hfmt : fmt ≤ 16) (hb : 2 ≤ base) :
    fndUitoa str val fmt fill base b =
      let last := str + (reversedField fmt fill base val).length - 1
      let b := unrepaired str fmt fill base val b
      some (if val = 0 ∧ b.mem last ≠ 48 then b.put last 48 else b) := by
  have hcount : ((fmt : Int) - ((Nat.digits base val).length : Int)).toNat = fmt - (Nat.digits base val).length := by omega
  unfold fndUitoa unrepaired reversedField
  rw [if_neg (by omega), digitLoop_eq hb (Nat.lt_succ_self val), Option.map_some]
  dsimp only
  rw [fillLoop_eq]
  rw [Nat.add_zero, Nat.zero_add, hcount, Buffer.write_append, List.length_append, List.length_map, List.length_replicate]

/-- A positive value needs no repair. -/
theorem unrepaired_printed {fmt : Nat} (hb : 2 ≤ base) (hb' : base ≤ 36) (hfill : fill ≠ 0) (hval : val ≠ 0) :
    Printed str (field fmt fill (digitText base val)) b (unrepaired str fmt fill base val b) := by
  have hdigits : (Nat.digits base val).map baseToDigit = (digitText base val).reverse := by
    rw [digitText, if_neg hval, List.reverse_reverse]
  have hlen : (digitText base val).length = (Nat.digits base val).length := by
    rw [← List.length_reverse, ← hdigits, List.length_map]
  have hfield : (reversedField fmt fill base val).reverse = field fmt fill (digitText base val) := by
    rw [reversedField, hdigits, List.reverse_append, List.reverse_reverse, List.reverse_replicate, field, hlen]
  rw [← hfield]
  apply printed_of_reversed
  · intro hnil
    have hempty := (List.append_eq_nil_iff.mp hnil).1
    exact hval (Nat.digits_eq_nil_iff_eq_zero.mp (List.map_eq_nil_iff.mp hempty))
  · intro c hc
    rcases List.mem_append.mp hc with hc | hc
    · rw [hdigits] at hc
      exact digitText_ne_zero hb hb' c (List.mem_reverse.mp hc)
    · rw [List.eq_of_mem_replicate hc]
      exact hfill

/-- A zero is a field of fill, as long as there is a field. -/
theorem unrepaired_zero {n : Nat} (hfill : fill ≠ 0) :
    Printed str (List.replicate n fill ++ [fill]) b (unrepaired str (n + 1) fill base 0 b) := by
  have hl : reversedField (n + 1) fill base 0 = List.replicate (n + 1) fill := by simp [reversedField]
  have hrev : (List.replicate (n + 1) fill).reverse = List.replicate n fill ++ [fill] := by
    rw [List.reverse_replicate, List.replicate_succ']
  unfold unrepaired
  rw [hl, ← hrev]
  apply printed_of_reversed
  · simp
  · intro c hc
    rw [List.eq_of_mem_replicate hc]
    exact hfill

theorem fndUitoa_printed {fmt : Nat} (hfmt : fmt ≤ 16) (hb : 2 ≤ base) (hb' : base ≤ 36) (hfill : fill ≠ 0)
    (hne : ¬(val = 0 ∧ fmt = 0)) :
    ∃ b', fndUitoa str val fmt fill base b = some b' ∧ Printed str (field fmt fill (digitText base val)) b b' := by
  refine ⟨_, fndUitoa_eq hfmt hb, ?_⟩
  by_cases hval : val = 0
  · -- the last character of the fill becomes the digit
    subst hval
    obtain ⟨n, rfl⟩ : ∃ n, fmt = n + 1 := ⟨fmt - 1, by omega⟩
    have hlast : str + (reversedField (n + 1) fill base 0).length - 1 = str + (List.replicate n fill).length := by
      simp [reversedField]
    have htext : field (n + 1) fill (digitText base 0) = List.replicate n fill ++ [48] := by simp [field, digitText]
    have hprint : Printed str (List.replicate n fill ++ [fill]) b (unrepaired str (n + 1) fill base 0 b) :=
      unrepaired_zero hfill
    rw [htext, hlast]
    split
    · exact hprint.setLast (by decide)
    · rename_i hkept
      have hdigit : (unrepaired str (n + 1) fill base 0 b).mem (str + (List.replicate n fill).length) = 48 := by
        by_contra hno
        exact hkept ⟨rfl, hno⟩
      have hchar : (unrepaired str (n + 1) fill base 0 b).mem (str + (List.replicate n fill).length) = fill :=
        hprint.last
      rw [hchar] at hdigit
      rw [hdigit] at hprint ⊢
      exact hprint
  · rw [if_neg (fun h => hval h.1)]
    exact unrepaired_printed hb hb' hfill hval

/-- A zero without a field is no text: the digit goes before the buffer. -/
theorem fndUitoa_empty (hstr : 0 < str) (hb : 2 ≤ base) :
    ∃ b', fndUitoa str 0 0 fill base b = some b' ∧ b'.mem str = 0 := by
  have hnil : reversedField 0 fill base 0 = [] := by simp [reversedField]
  have hun : (unrepaired str 0 fill base 0 b).mem str = 0 := by
    rw [unrepaired, hnil]
    show (strrev str 0 (b.put str 0)).mem str = 0
    rw [strrev, if_pos (Buffer.put_self ..), Buffer.put_self]
  refine ⟨_, fndUitoa_eq (Nat.zero_le 16) hb, ?_⟩
  dsimp only
  split
  · rw [hnil, List.length_nil, Buffer.put_of_ne (by omega), hun]
  · exact hun

/-! ## reading back -/

theorem baseToDigit_decimal {digit : Nat} (h : digit < 10) :
    ¬(baseToDigit digit < 48 ∨ 57 < baseToDigit digit) ∧ (baseToDigit digit).toNat - 48 = digit := by
  interval_cases digit <;> decide

/-- Digits, the lowest first, are added up modulo the width of an `unsigned`. -/
theorem atouiLoop_digits {ds : List Nat} (hds : ∀ d ∈ ds, d < 10) (rest : List UInt8) (ret w : Nat) :
    ∃ w', atouiLoop (ds.map baseToDigit ++ rest) (ret % 2 ^ 32) (w % 2 ^ 32) =
      atouiLoop rest ((ret + Nat.ofDigits 10 ds * w) % 2 ^ 32) w' := by
  induction ds generalizing ret w with
  | nil => exact ⟨w % 2 ^ 32, by simp⟩
  | cons d ds ih =>
    obtain ⟨hrange, hvalue⟩ := baseToDigit_decimal (hds d List.mem_cons_self)
    obtain ⟨w', hrest⟩ := ih (fun x hx => hds x (List.mem_cons_of_mem d hx)) (ret + d * w) (w * 10)
    have hret : (ret % 2 ^ 32 + d * (w % 2 ^ 32)) % 2 ^ 32 = (ret + d * w) % 2 ^ 32 := by
      rw [Nat.add_mod, Nat.mul_mod, Nat.mod_mod, Nat.mod_mod, ← Nat.mul_mod, ← Nat.add_mod]
    have hw : w % 2 ^ 32 * 10 % 2 ^ 32 = w * 10 % 2 ^ 32 := by omega
    have hsum : ret + d * w + Nat.ofDigits 10 ds * (w * 10) = ret + Nat.ofDigits 10 (d :: ds) * w := by
      rw [Nat.ofDigits_cons]
      ring
    refine ⟨w', ?_⟩
    rw [List.map_cons, List.cons_append, atouiLoop, if_neg hrange, hvalue, hret, hw, hrest, hsum]

/-- Blanks end the number and zeros add nothing. -/
theorem atouiLoop_fill (hfill : fill = 32 ∨ fill = 48) {ret : Nat} (hret : ret < 2 ^ 32) (n w : Nat) :
    atouiLoop (List.replicate n fill) ret w = ret := by
  induction n generalizing w with
  | zero => rfl
  | succ n ih =>
    rw [List.replicate_succ, atouiLoop]
    rcases hfill with rfl | rfl
    · rw [if_pos (by decide)]
    · rw [if_neg (by decide), show (48 : UInt8).toNat - 48 = 0 by decide, Nat.zero_mul, Nat.add_zero,
        Nat.mod_eq_of_lt hret]
      exact ih _

theorem fndAtoui_field {fmt : Nat} (hfill : fill = 32 ∨ fill = 48) (hval : val < 2 ^ 32) :
    fndAtoui (field fmt fill (digitText 10 val)) = val := by
  -- a zero is the digit list `[0]` here
  obtain ⟨ds, hds, hofd, htext⟩ : ∃ ds : List Nat, (∀ d ∈ ds, d < 10) ∧ Nat.ofDigits 10 ds = val ∧
      (digitText 10 val).reverse = ds.map baseToDigit := by
    by_cases hzero : val = 0
    · subst hzero
      exact ⟨[0], by decide, by decide, by decide⟩
    · refine ⟨Nat.digits 10 val, fun d hd => Nat.digits_lt_base (by decide) hd, Nat.ofDigits_digits 10 val, ?_⟩
      rw [digitText, if_neg hzero, List.reverse_reverse]
  obtain ⟨w', hloop⟩ := atouiLoop_digits hds (List.replicate (fmt - (digitText 10 val).length) fill) 0 1
  rw [Nat.zero_mod, Nat.mod_eq_of_lt (by decide : 1 < 2 ^ 32), Nat.zero_add, Nat.mul_one, hofd,
    Nat.mod_eq_of_lt hval] at hloop
  unfold fndAtoui field
  rw [List.reverse_append, htext, List.reverse_replicate, hloop, atouiLoop_fill hfill hval]

/-- **Number to text and back**: of every value and base, right-aligned in a field of up to sixteen
characters, the text is written as a string that begins at `str`, nothing else is written, and the text of
a 32-bit value in base ten reads back as the value, if and only if a zero has a field. -/
theorem number_text (str val fmt base : Nat) (fill : UInt8) (mem : Nat → UInt8) (hstr : 0 < str) (hfmt : fmt ≤ 16)
    (hfill : fill = 32 ∨ fill = 48) (hb : 2 ≤ base) (hb' : base ≤ 36) :
    let text := field fmt fill (digitText base val)
    ((∀ print ∈ [fndUitoa, fndUlltoa], ∃ b', print str val fmt fill base ⟨mem, []⟩ = some b' ∧
        IsString b'.mem str text ∧ ∀ q ∈ b'.touched, str ≤ q ∧ q ≤ str + max fmt (digitText base val).length) ∧
      (base = 10 → val < 2 ^ 32 → fndAtoui text = val)) ↔ ¬(val = 0 ∧ fmt = 0) := by
  have hzero : fill ≠ 0 := by rcases hfill with rfl | rfl <;> decide
  refine ⟨fun ⟨h, _⟩ => ?_, fun hne => ⟨fun print hprint => ?_, ?_⟩⟩
  · rintro ⟨rfl, rfl⟩
    obtain ⟨b', hrun, hstring, _⟩ := h fndUitoa (List.mem_cons_self ..)
    obtain ⟨b'', hrun', hend⟩ := fndUitoa_empty (b := ⟨mem, []⟩) hstr hb
    obtain rfl : b'' = b' := Option.some.inj (hrun'.symm.trans hrun)
    have hfirst : b''.mem str = 48 := by simpa [field, digitText, slice] using hstring.bytes
    rw [hend] at hfirst
    exact absurd hfirst (by decide)
  · obtain ⟨b', hrun, hp⟩ := fndUitoa_printed hfmt hb hb' hzero hne
    have hsame : print = fndUitoa := by simpa [fndUlltoa] using hprint
    refine ⟨b', hsame ▸ hrun, hp.string, fun q hq => ?_⟩
    rcases hp.touched q hq with h | h
    · rwa [length_field] at h
    · cases h
  · rintro rfl hval
    exact fndAtoui_field hfill hval

theorem number_text_padded :
    let text := field 4 32 (digitText 16 255)
    (∀ print ∈ [fndUitoa, fndUlltoa], ∃ b', print 100 255 (4 : Nat) 32 16 ⟨fun _ => 170, []⟩ = some b' ∧
      IsString b'.mem 100 text ∧ ∀ q ∈ b'.touched, 100 ≤ q ∧ q ≤ 100 + max 4 (digitText 16 255).length) ∧
    ((16 : Nat) = 10 → 255 < 2 ^ 32 → fndAtoui text = 255) :=
  (number_text 100 255 4 16 32 (fun _ => 170) (by decide) (by decide) (.inl rfl) (by decide) (by decide)).mpr
    (by decide)

-- two blanks and `FF`
example : field 4 32 (digitText 16 255) = [32, 32, 70, 70] := by simp [field, digitText, baseToDigit]

/-- A zero in an empty field leaves the empty text and writes the byte before the buffer. -/
theorem zero_without_field :
    ((fndUitoa 1 0 0 32 10 ⟨fun _ => 170, []⟩).map fun b => (b.touched, b.mem 0, b.mem 1)) = some ([0, 1], 48, 0) := by
  decide

end Isix.Foundation
