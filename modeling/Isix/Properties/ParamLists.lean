import Isix.Gsm.ParamParser
import Isix.Properties.NumberText

/-!
# Isix.Properties.ParamLists

A list of parameters that was written with commas parses back, in place.  `At`
says what lies behind the position of the parser and what is still to come: the
rest of the text, its terminator and whatever follows.  Each kind of parameter
has one lemma; between two parameters the comma is still there or was
overwritten and remembered (`Behind`).

A string that was returned lies behind the position, with its terminator, and
is not written again.
-/

namespace Isix.Gsm

open Foundation (digitText baseToDigit)

variable {p q : Parser} {done text extra s tail : List UInt8} {c stop : UInt8}

/-! ## what is done and what is to come -/

/-- The text `text` is to come, and then the terminator, which lies in the buffer. -/
structure At (p : Parser) (done text extra : List UInt8) : Prop where
  mem : p.mem = done ++ (text ++ 0 :: extra)
  pos : p.pos = done.length
  room : done.length + text.length < p.eob

namespace At

theorem good (h : At p done text extra) : p.good = true := by
  have := h.room
  have := h.pos
  exact decide_eq_true (by omega)

theorem cur_nil (h : At p done [] extra) : p.cur = 0 := by
  unfold Parser.cur
  rw [h.mem, h.pos]
  simp

section

variable (h : At p done (c :: text) extra)

include h

theorem cur_cons : p.cur = c := by
  unfold Parser.cur
  rw [h.mem, h.pos]
  simp

theorem next : At p.next (done ++ [c]) text extra := by
  refine ⟨?_, ?_, ?_⟩
  · simpa [Parser.next] using h.mem
  · simp [Parser.next, h.pos]
  · have := h.room
    simp only [List.length_append, List.length_cons, List.length_nil] at *
    exact (by omega : done.length + (0 + 1) + text.length < p.eob)

theorem cut : At p.cut done (0 :: text) extra := by
  refine ⟨?_, h.pos, h.room⟩
  unfold Parser.cut
  rw [h.mem, h.pos, List.set_append_right _ _ (Nat.le_refl _), Nat.sub_self]
  rfl

end

/-- At the end of the text a terminator is written over itself. -/
theorem cut_nil (h : At p done [] extra) : At p.cut done [] extra := by
  refine ⟨?_, h.pos, h.room⟩
  unfold Parser.cut
  rw [h.mem, h.pos, List.set_append_right _ _ (Nat.le_refl _), Nat.sub_self]
  rfl

theorem skipSpace_eq (h : At p done text extra) (hs : text.head? ≠ some 32) : p.skipSpace = p := by
  refine if_neg fun hc => ?_
  cases text with
  | nil =>
    rw [h.cur_nil] at hc
    exact absurd hc.2 (by decide)
  | cons c text =>
    rw [h.cur_cons] at hc
    exact hs (congrArg some hc.2)

theorem skipSpace_space (h : At p done (32 :: text) extra) : At p.skipSpace (done ++ [32]) text extra := by
  unfold Parser.skipSpace
  rw [if_pos ⟨h.good, h.cur_cons⟩]
  exact h.next

/-- A loop runs over `s` and stops at the character, or at the end. -/
theorem seekLoop {fuel : Nat} (h : At p done (s ++ tail) extra) (hs : ∀ c ∈ s, c ≠ 0 ∧ c ≠ stop)
    (ht : ∀ c ∈ tail.head?, c = stop) (hf : s.length ≤ fuel) :
    At (Parser.seekLoop stop fuel p) (done ++ s) tail extra ∧ (Parser.seekLoop stop fuel p).mem = p.mem ∧
      (Parser.seekLoop stop fuel p).commaPos = p.commaPos := by
  induction s generalizing fuel p done with
  | nil =>
    have hstop : Parser.seekLoop stop fuel p = p := by
      cases fuel with
      | zero => rfl
      | succ fuel =>
        refine if_neg fun hc => ?_
        cases tail with
        | nil => exact hc.2.1 h.cur_nil
        | cons c tail => exact hc.2.2 (h.cur_cons.trans (ht c rfl))
    rw [hstop, List.append_nil]
    exact ⟨h, rfl, rfl⟩
  | cons c s ih =>
    cases fuel with
    | zero => cases hf
    | succ fuel =>
      have hc := hs c List.mem_cons_self
      have hcur : p.cur = c := h.cur_cons
      unfold Parser.seekLoop
      rw [if_pos ⟨h.good, by rw [hcur]; exact hc.1, by rw [hcur]; exact hc.2⟩]
      have hnext := ih h.next (fun x hx => hs x (List.mem_cons_of_mem c hx)) (Nat.le_of_succ_le_succ hf)
      rwa [List.append_assoc, List.singleton_append] at hnext

theorem seek (h : At p done (s ++ tail) extra) (hs : ∀ c ∈ s, c ≠ 0 ∧ c ≠ stop) (ht : ∀ c ∈ tail.head?, c = stop) :
    At (p.seek stop) (done ++ s) tail extra ∧ (p.seek stop).mem = p.mem ∧ (p.seek stop).commaPos = p.commaPos := by
  refine h.seekLoop hs ht ?_
  have := h.room
  have := h.pos
  rw [List.length_append] at *
  omega

end At

/-! ## numbers -/

/-- An integer as it is written. -/
def intText (v : Int) : List UInt8 := (if v < 0 then [45] else []) ++ digitText 10 v.natAbs

theorem decimal_digits {ds : List Nat} (hds : ∀ d ∈ ds, d < 10) : decimal (ds.map baseToDigit).reverse = Nat.ofDigits 10 ds := by
  induction ds with
  | nil => rfl
  | cons d ds ih =>
    have hvalue := (Foundation.baseToDigit_decimal (hds d List.mem_cons_self)).2
    have hrest := ih fun x hx => hds x (List.mem_cons_of_mem d hx)
    unfold decimal at hrest ⊢
    rw [List.map_cons, List.reverse_cons, List.foldl_append, hrest, List.foldl_cons, List.foldl_nil, hvalue,
      Nat.ofDigits_cons]
    ring

theorem decimal_digitText (n : Nat) : decimal (digitText 10 n) = n := by
  unfold digitText
  split
  · rename_i h0
    rw [h0]
    rfl
  · rw [decimal_digits fun d hd => Nat.digits_lt_base (by decide) hd, Nat.ofDigits_digits]

theorem isDigit_digitText (n : Nat) : ∀ c ∈ digitText 10 n, isDigit c = true := by
  intro c hc
  unfold digitText at hc
  split at hc
  · rw [List.mem_singleton.mp hc]
    rfl
  · obtain ⟨d, hd, rfl⟩ := List.mem_map.mp (List.mem_reverse.mp hc)
    have hlt : d < 10 := Nat.digits_lt_base (by decide) hd
    interval_cases d <;> rfl

theorem digitText_ne_nil (n : Nat) : digitText 10 n ≠ [] := by
  unfold digitText
  split
  · exact List.cons_ne_nil _ _
  · rename_i h0
    intro h
    exact h0 (Nat.digits_eq_nil_iff_eq_zero.mp (List.map_eq_nil_iff.mp (List.reverse_eq_nil_iff.mp h)))

theorem takeWhile_append_stop {f : UInt8 → Bool} (hs : ∀ c ∈ s, f c = true) (ht : ∀ c ∈ tail.head?, f c = false) :
    (s ++ tail).takeWhile f = s := by
  rw [List.takeWhile_append_of_pos hs]
  cases tail with
  | nil => simp
  | cons c tail => rw [List.takeWhile_cons_of_neg (by rw [ht c rfl]; decide), List.append_nil]

theorem intText_head (v : Int) : ∃ c l, intText v = c :: l ∧ (c = 45 ∨ isDigit c = true) := by
  unfold intText
  split
  · exact ⟨45, _, rfl, .inl rfl⟩
  · cases h : digitText 10 v.natAbs with
    | nil => exact absurd h (digitText_ne_nil _)
    | cons c l => exact ⟨c, l, rfl, .inr (isDigit_digitText v.natAbs c (h ▸ List.mem_cons_self))⟩

/-- `strtol` skips blanks and reads the number up to what is not a digit. -/
theorem strtol_intText (v : Int) (ht : ∀ c ∈ tail.head?, isDigit c = false) (k : Nat) :
    strtol (List.replicate k 32 ++ (intText v ++ tail)) = (clamp v, k + (intText v).length) := by
  obtain ⟨c, l, hcl, hc⟩ := intText_head v
  have hspaces : (List.replicate k 32 ++ (intText v ++ tail)).takeWhile isSpace = List.replicate k 32 := by
    refine takeWhile_append_stop (fun x hx => by rw [List.eq_of_mem_replicate hx]; rfl) fun x hx => ?_
    rw [hcl] at hx
    obtain rfl : c = x := by simpa using hx
    rcases hc with rfl | hc
    · rfl
    · have h48 := (of_decide_eq_true hc).1
      refine decide_eq_false fun h => ?_
      rcases h with rfl | h
      · exact absurd h48 (by decide)
      · have := UInt8.le_trans h48 h.2
        exact absurd this (by decide)
  have hdrop : (List.replicate k 32 ++ (intText v ++ tail)).drop k = intText v ++ tail := by
    rw [List.drop_append_of_le_length (by simp), List.drop_replicate, Nat.sub_self]
    rfl
  have hdigits : (digitText 10 v.natAbs ++ tail).takeWhile isDigit = digitText 10 v.natAbs :=
    takeWhile_append_stop (isDigit_digitText _) ht
  unfold strtol
  dsimp only
  rw [hspaces, List.length_replicate, hdrop]
  by_cases hneg : v < 0
  · have htext : intText v ++ tail = 45 :: (digitText 10 v.natAbs ++ tail) := by
      unfold intText
      rw [if_pos hneg]
      rfl
    have hlen : (intText v).length = 1 + (digitText 10 v.natAbs).length := by
      unfold intText
      rw [if_pos hneg, List.length_append]
      rfl
    rw [htext, List.head?_cons, if_pos rfl]
    rw [List.drop_succ_cons, List.drop_zero, hdigits, if_neg (digitText_ne_nil _), if_pos rfl, decimal_digitText, hlen,
      show -((v.natAbs : Nat) : Int) = v by omega, Nat.add_assoc]
  · have htext : intText v = digitText 10 v.natAbs := by
      unfold intText
      rw [if_neg hneg]
      rfl
    have hcd : isDigit c = true := isDigit_digitText v.natAbs c (by rw [← htext, hcl]; exact List.mem_cons_self)
    have h45 : (intText v ++ tail).head? ≠ some 45 := by
      rw [hcl, List.cons_append, List.head?_cons]
      intro h
      obtain rfl := Option.some.inj h
      exact absurd hcd (by decide)
    have h43 : (intText v ++ tail).head? ≠ some 43 := by
      rw [hcl, List.cons_append, List.head?_cons]
      intro h
      obtain rfl := Option.some.inj h
      exact absurd hcd (by decide)
    rw [if_neg h45, if_neg h43]
    rw [List.drop_zero, htext, hdigits, if_neg (digitText_ne_nil _), if_neg (by decide), decimal_digitText,
      show ((v.natAbs : Nat) : Int) = v by omega, Nat.add_zero]

/-! ## one parameter -/

/-- A parameter; an omitted one may be read as a string or as an integer. -/
inductive Item
  | noString
  | noInt
  | int (v : Int)
  | quoted (s : List UInt8)
  | plain (s : List UInt8)
deriving DecidableEq, Repr

namespace Item

/-- The parameters that can be written. -/
def Ok : Item → Prop
  | .noString => True
  | .noInt => True
  | .int v => -2 ^ 31 ≤ v ∧ v < 2 ^ 31
  | .quoted s => ∀ c ∈ s, c ≠ 0 ∧ c ≠ 34
  | .plain s => s ≠ [] ∧ s.head? ≠ some 32 ∧ ∀ c ∈ s, c ≠ 0 ∧ c ≠ 44 ∧ c ≠ 34

/-- The parameter as it is written. -/
def written : Item → List UInt8
  | .noString => []
  | .noInt => []
  | .int v => intText v
  | .quoted s => 34 :: (s ++ [34])
  | .plain s => s

end Item

/-- What a call returns: a number, or where a string is. -/
inductive Value
  | int (v : Int)
  | str (pos : Option Nat)
deriving DecidableEq, Repr

/-- `parse_string(true)` or `parse_int(v, true)`. -/
def Item.parse (p : Parser) : Item → Except Error (Value × Parser)
  | .noInt | .int _ => (p.parseInt true).map fun (v, p) => (.int v, p)
  | _ => (p.parseString true false).map fun (a, p) => (.str a, p)

/-- The string `s` stands at `a`, and its terminator is one of the first `k` bytes. -/
def TextAt (mem : List UInt8) (k a : Nat) (s : List UInt8) : Prop :=
  ∃ pre post, mem = pre ++ (s ++ 0 :: post) ∧ a = pre.length ∧ a + s.length < k

/-- The value is that of the parameter; a string lies in the first `k` bytes. -/
def Item.Is (mem : List UInt8) (k : Nat) : Item → Value → Prop
  | .noString, .str (some a) => TextAt mem k a []
  | .noInt, .int v => v = notSet
  | .int v, .int w => w = v
  | .quoted s, .str (some a) => TextAt mem k a s
  | .plain s, .str (some a) => TextAt mem k a s
  | _, _ => False

theorem TextAt.kept {mem mem' : List UInt8} {k k' a : Nat} (h : TextAt mem k a s) (hk : mem'.take k = mem.take k)
    (hle : k ≤ k') : TextAt mem' k' a s := by
  obtain ⟨pre, post, rfl, rfl, hlt⟩ := h
  have hlen : (pre ++ (s ++ [0])).length ≤ k := by
    simp only [List.length_append, List.length_singleton]
    omega
  have hprefix : pre ++ (s ++ [0]) <+: mem' := by
    refine List.IsPrefix.trans ?_ (List.take_prefix k mem')
    rw [hk]
    refine List.prefix_of_prefix_length_le ?_ (List.take_prefix k _) ?_
    · exact ⟨post, by simp⟩
    · rw [List.length_take]
      simp only [List.length_append, List.length_cons, List.length_nil] at hlen ⊢
      omega
  obtain ⟨post', hpost⟩ := hprefix
  exact ⟨pre, post', by rw [← hpost]; simp, rfl, by omega⟩

theorem Item.Is.kept {mem mem' : List UInt8} {k k' : Nat} {item : Item} {v : Value} (h : item.Is mem k v)
    (hk : mem'.take k = mem.take k) (hle : k ≤ k') : item.Is mem' k' v := by
  cases item with
  | noString =>
    cases v with
    | int _ => exact h
    | str a =>
      cases a with
      | none => exact h
      | some a => exact TextAt.kept h hk hle
  | noInt => cases v <;> exact h
  | int _ => cases v <;> exact h
  | quoted s =>
    cases v with
    | int _ => exact h
    | str a =>
      cases a with
      | none => exact h
      | some a => exact TextAt.kept h hk hle
  | plain s =>
    cases v with
    | int _ => exact h
    | str a =>
      cases a with
      | none => exact h
      | some a => exact TextAt.kept h hk hle

/-- Behind a parameter, before `tail`: a comma is still there, or a terminator stands in its place and the
position was remembered. -/
inductive Behind (p : Parser) (done tail extra : List UInt8) : Prop
  | kept (h : At p done tail extra) (hc : p.commaPos = none)
  | cut (text : List UInt8) (h : At p done (0 :: text) extra) (ht : tail = 44 :: text) (hc : p.commaPos.isSome = true)
  | last (h : At p done [] extra) (ht : tail = [])

/-- What a call did: it gave the value of the parameter, and changed nothing before its position. -/
structure Parsed (item : Item) (p p' : Parser) (v : Value) (tail extra : List UInt8) : Prop where
  behind : ∃ done, Behind p' done tail extra ∧ p.pos ≤ done.length
  is : item.Is p'.mem (p'.pos + 1) v
  kept : p'.mem.take p.pos = p.mem.take p.pos

/-- A list goes on with a comma, or ends. -/
def Ends (tail : List UInt8) : Prop := ∀ c ∈ tail.head?, c = 44

theorem checkEmpty_empty (h : At p done tail extra) (ht : Ends tail) : p.checkEmptyParameter true = .ok (true, p) := by
  have hskip : p.skipSpace = p := h.skipSpace_eq fun h32 => absurd (ht 32 h32) (by decide)
  have hcur : p.cur = 44 ∨ p.cur = 0 := by
    cases tail with
    | nil => exact .inr h.cur_nil
    | cons c tail => exact .inl (h.cur_cons.trans (ht c rfl))
  unfold Parser.checkEmptyParameter
  rw [hskip, if_neg (not_not.mpr h.good), if_pos hcur, if_pos rfl]

theorem checkEmpty_text {allow : Bool} (h : At p done (c :: text) extra) (h32 : c ≠ 32) (h44 : c ≠ 44) (h0 : c ≠ 0) :
    p.checkEmptyParameter allow = .ok (false, p) := by
  have hskip : p.skipSpace = p := h.skipSpace_eq fun hc => h32 (Option.some.inj hc)
  unfold Parser.checkEmptyParameter
  rw [hskip, if_neg (not_not.mpr h.good), h.cur_cons, if_neg (by tauto)]

/-- A number within the range of a `long` is read as it is. -/
theorem clamp_eq {v : Int} (hv : -2 ^ 31 ≤ v) (hv' : v < 2 ^ 31) : clamp v = v := by
  unfold clamp
  omega

/-- Before a number, one of any number of spaces is skipped. -/
theorem At.skipSpace_number {k : Nat} {v : Int} (h : At p done (List.replicate k 32 ++ (intText v ++ tail)) extra) :
    ∃ done' k', At p.skipSpace done' (List.replicate k' 32 ++ (intText v ++ tail)) extra ∧
      done' ++ List.replicate k' 32 = done ++ List.replicate k 32 ∧ p.skipSpace.mem = p.mem ∧
      p.skipSpace.commaPos = p.commaPos := by
  obtain ⟨c, l, hcl, hc⟩ := intText_head v
  cases k with
  | zero =>
    have hskip : p.skipSpace = p := by
      refine h.skipSpace_eq ?_
      rw [hcl]
      intro h32
      obtain rfl : c = 32 := by simpa using h32
      exact absurd hc (by decide)
    rw [hskip]
    exact ⟨done, 0, h, rfl, rfl, rfl⟩
  | succ k =>
    have hspace : At p done (32 :: (List.replicate k 32 ++ (intText v ++ tail))) extra := h
    have hskip : p.skipSpace = p.next := if_pos ⟨hspace.good, hspace.cur_cons⟩
    refine ⟨done ++ [32], k, hspace.skipSpace_space, ?_, by rw [hskip]; rfl, by rw [hskip]; rfl⟩
    rw [List.append_assoc, List.replicate_succ]
    rfl

theorem doParseInt_intText {k : Nat} {v : Int} (h : At p done (List.replicate k 32 ++ (intText v ++ tail)) extra)
    (ht : ∀ c ∈ tail.head?, isDigit c = false) :
    ∃ p', p.doParseInt = .ok (clamp v, p') ∧ At p' (done ++ List.replicate k 32 ++ intText v) tail extra ∧
      p'.mem = p.mem ∧ p'.commaPos = p.commaPos := by
  obtain ⟨c, l, hcl, hc⟩ := intText_head v
  obtain ⟨done', k', h', hdone, hmem, hcomma⟩ := h.skipSpace_number
  have hdrop : p.skipSpace.mem.drop p.skipSpace.pos = List.replicate k' 32 ++ (intText v ++ (tail ++ 0 :: extra)) := by
    rw [h'.mem, h'.pos, List.drop_left, List.append_assoc, List.append_assoc]
  have hstop : ∀ c ∈ (tail ++ 0 :: extra).head?, isDigit c = false := by
    cases tail with
    | nil =>
      intro c hc
      obtain rfl : 0 = c := by simpa using hc
      rfl
    | cons c tail => exact ht
  have hn : k' + (intText v).length ≠ 0 := by rw [hcl]; simp
  have hroom := h'.room
  simp only [List.length_append, List.length_replicate] at hroom
  have hat : At { p.skipSpace with pos := p.skipSpace.pos + (k' + (intText v).length) } (done ++ List.replicate k 32 ++ intText v)
      tail extra := by
    refine ⟨?_, ?_, ?_⟩
    · rw [← hdone, h'.mem]
      simp
    · rw [← hdone, h'.pos]
      simp only [List.length_append, List.length_replicate]
      omega
    · rw [← hdone]
      simp only [List.length_append, List.length_replicate]
      omega
  have hinside : (if p.skipSpace.eob ≤ p.skipSpace.pos + (k' + (intText v).length) then p.skipSpace.eob - 1
      else p.skipSpace.pos + (k' + (intText v).length)) = p.skipSpace.pos + (k' + (intText v).length) :=
    if_neg (by rw [h'.pos]; omega)
  unfold Parser.doParseInt
  dsimp only
  rw [if_neg (not_not.mpr h'.good), hdrop, strtol_intText v hstop]
  rw [if_neg hn, hinside, if_neg (not_not.mpr hat.good)]
  exact ⟨_, rfl, hat, hmem, hcomma⟩

theorem parse_int {v : Int} (h : At p done (intText v ++ tail) extra) (hc : p.commaPos = none) (hv : (Item.int v).Ok)
    (ht : Ends tail) : ∃ w p', Item.parse p (.int v) = .ok (w, p') ∧ Parsed (.int v) p p' w tail extra := by
  obtain ⟨c, l, hcl, hcd⟩ := intText_head v
  have hempty : p.checkEmptyParameter true = .ok (false, p) := by
    rw [hcl] at h
    refine checkEmpty_text h ?_ ?_ ?_ <;> rintro rfl <;> exact absurd hcd (by decide)
  have hstop : ∀ c ∈ tail.head?, isDigit c = false := fun c hc => by rw [ht c hc]; rfl
  obtain ⟨p', hp', hat, hmem, hcomma⟩ := doParseInt_intText (k := 0) h hstop
  rw [List.replicate_zero, List.append_nil] at hat
  have hcall : Item.parse p (.int v) = .ok (.int v, p') := by
    unfold Item.parse Parser.parseInt
    rw [hempty]
    dsimp only
    rw [hp', clamp_eq hv.1 hv.2]
    rfl
  refine ⟨_, _, hcall, ⟨_, .kept hat (hcomma.trans hc), ?_⟩, rfl, by rw [hmem]⟩
  rw [h.pos, List.length_append]
  omega

theorem parse_noInt (h : At p done tail extra) (hc : p.commaPos = none) (ht : Ends tail) :
    ∃ w p', Item.parse p .noInt = .ok (w, p') ∧ Parsed .noInt p p' w tail extra := by
  have hcall : Item.parse p .noInt = .ok (.int notSet, p) := by
    unfold Item.parse Parser.parseInt
    rw [checkEmpty_empty h ht]
    rfl
  exact ⟨_, _, hcall, ⟨_, .kept h hc, Nat.le_of_eq h.pos⟩, rfl, rfl⟩

theorem parse_noString (h : At p done tail extra) (ht : Ends tail) :
    ∃ w p', Item.parse p .noString = .ok (w, p') ∧ Parsed .noString p p' w tail extra := by
  have hcall : Item.parse p .noString = .ok (.str (some p.pos), { p with commaPos := some p.pos }.cut) := by
    unfold Item.parse Parser.parseString
    rw [checkEmpty_empty h ht]
    rfl
  have hat : At { p with commaPos := some p.pos } done tail extra := { h with }
  have hkept : ({ p with commaPos := some p.pos } : Parser).cut.mem.take p.pos = p.mem.take p.pos :=
    List.take_set_of_le (Nat.le_refl _)
  cases tail with
  | nil =>
    refine ⟨_, _, hcall, ⟨_, .last hat.cut_nil rfl, Nat.le_of_eq h.pos⟩, ?_, hkept⟩
    exact ⟨done, extra, hat.cut_nil.mem, h.pos, by simp [Parser.cut]⟩
  | cons c tail =>
    obtain rfl : c = 44 := ht c rfl
    refine ⟨_, _, hcall, ⟨_, .cut tail hat.cut rfl rfl, Nat.le_of_eq h.pos⟩, ?_, hkept⟩
    exact ⟨done, tail ++ 0 :: extra, hat.cut.mem, h.pos, by simp [Parser.cut]⟩

theorem parse_plain (h : At p done (s ++ tail) extra) (hc : p.commaPos = none) (hs : (Item.plain s).Ok) (ht : Ends tail) :
    ∃ w p', Item.parse p (.plain s) = .ok (w, p') ∧ Parsed (.plain s) p p' w tail extra := by
  obtain ⟨hne, hspace, hchars⟩ := hs
  obtain ⟨c, l, rfl⟩ : ∃ c l, s = c :: l := List.exists_cons_of_ne_nil hne
  have hc0 := hchars c List.mem_cons_self
  have h32 : c ≠ 32 := fun h => hspace (congrArg some h)
  have hempty : p.checkEmptyParameter true = .ok (false, p) := checkEmpty_text h h32 hc0.2.1 hc0.1
  have hskip : p.skipSpace = p := h.skipSpace_eq fun he => h32 (Option.some.inj he)
  have hmark : p.parseChar 34 true = .ok (false, p) := by
    unfold Parser.parseChar
    rw [hskip, if_neg (not_not.mpr h.good), h.cur_cons, if_pos hc0.2.2, if_pos rfl]
  obtain ⟨hat, hmem, hcomma⟩ := h.seek (fun x hx => ⟨(hchars x hx).1, (hchars x hx).2.1⟩) ht
  have hpos : (p.seek 44).pos = done.length + (c :: l).length := by rw [hat.pos, List.length_append]
  have hle : p.pos ≤ (done ++ c :: l).length := by rw [h.pos, List.length_append]; omega
  cases tail with
  | nil =>
    have hcall : Item.parse p (.plain (c :: l)) = .ok (.str (some p.pos), p.seek 44) := by
      unfold Item.parse Parser.parseString
      rw [hempty]
      dsimp only
      unfold Parser.doParseString
      rw [hmark]
      dsimp only
      rw [if_neg (not_not.mpr hat.good), hat.cur_nil, if_neg (by decide)]
      rfl
    refine ⟨_, _, hcall, ⟨_, .kept hat (hcomma.trans hc), hle⟩, ?_, by rw [hmem]⟩
    exact ⟨done, extra, by rw [hat.mem]; simp, h.pos, by rw [hpos, h.pos]; omega⟩
  | cons d tail =>
    obtain rfl : d = 44 := ht d rfl
    have hcall : Item.parse p (.plain (c :: l)) =
        .ok (.str (some p.pos), { p.seek 44 with commaPos := some (p.seek 44).pos }.cut) := by
      unfold Item.parse Parser.parseString
      rw [hempty]
      dsimp only
      unfold Parser.doParseString
      rw [hmark]
      dsimp only
      rw [if_neg (not_not.mpr hat.good), hat.cur_cons, if_pos rfl]
      rfl
    have hat' : At { p.seek 44 with commaPos := some (p.seek 44).pos } (done ++ c :: l) (44 :: tail) extra :=
      { hat with }
    refine ⟨_, _, hcall, ⟨_, .cut tail hat'.cut rfl rfl, hle⟩, ?_, ?_⟩
    · refine ⟨done, tail ++ 0 :: extra, by rw [hat'.cut.mem]; simp, h.pos, ?_⟩
      rw [hat'.cut.pos, h.pos, List.length_append]
      omega
    · unfold Parser.cut
      rw [List.take_set_of_le (by rw [hpos, h.pos]; omega), hmem]

theorem parse_quoted (h : At p done (34 :: (s ++ [34]) ++ tail) extra) (hc : p.commaPos = none) (hs : (Item.quoted s).Ok) :
    ∃ w p', Item.parse p (.quoted s) = .ok (w, p') ∧ Parsed (.quoted s) p p' w tail extra := by
  have hempty : p.checkEmptyParameter true = .ok (false, p) := checkEmpty_text h (by decide) (by decide) (by decide)
  have hskip : p.skipSpace = p := h.skipSpace_eq fun he => absurd (Option.some.inj he) (by decide)
  have hmark : p.parseChar 34 true = .ok (true, p.next) := by
    unfold Parser.parseChar
    rw [hskip, if_neg (not_not.mpr h.good), h.cur_cons, if_neg (by decide)]
  have hnext : At p.next (done ++ [34]) (s ++ 34 :: tail) extra := by
    have h' : At p done (34 :: (s ++ 34 :: tail)) extra := by simpa using h
    exact h'.next
  obtain ⟨hat, hmem, hcomma⟩ := hnext.seek hs (fun x hx => (Option.some.inj hx).symm)
  have hcall : Item.parse p (.quoted s) = .ok (.str (some p.next.pos), (p.next.seek 34).cut.next) := by
    unfold Item.parse Parser.parseString
    rw [hempty]
    dsimp only
    unfold Parser.doParseString
    rw [hmark]
    dsimp only
    rw [if_neg (by decide), if_neg (not_not.mpr hat.good), hat.cur_cons, if_neg (by decide)]
    rfl
  have hend := hat.cut.next
  refine ⟨_, _, hcall, ⟨_, .kept hend (hcomma.trans hc), ?_⟩, ?_, ?_⟩
  · simp only [List.length_append, h.pos]
    omega
  · refine ⟨done ++ [34], tail ++ 0 :: extra, by rw [hend.mem]; simp, hnext.pos, ?_⟩
    rw [hend.pos, hnext.pos]
    simp only [List.length_append, List.length_singleton]
    omega
  · show ((p.next.seek 34).mem.set (p.next.seek 34).pos 0).take p.pos = p.mem.take p.pos
    rw [List.take_set_of_le (by rw [hat.pos, h.pos]; simp only [List.length_append]; omega), hmem]
    rfl

/-- Every parameter parses, before a comma or at the end. -/
theorem Item.parse_ok {item : Item} (hi : item.Ok) (h : At p done (item.written ++ tail) extra) (hc : p.commaPos = none)
    (ht : Ends tail) : ∃ v p', item.parse p = .ok (v, p') ∧ Parsed item p p' v tail extra := by
  cases item with
  | noString => exact parse_noString h ht
  | noInt => exact parse_noInt h hc ht
  | int v => exact parse_int h hc hi ht
  | quoted s => exact parse_quoted h hc hi
  | plain s => exact parse_plain h hc hi ht

/-! ## the list -/

/-- `parse_comma` goes on behind the comma, whether it is still there or not. -/
theorem parseComma_behind (h : Behind p done (44 :: text) extra) :
    ∃ p' done', p.parseComma false = .ok (true, p') ∧ At p' done' text extra ∧ p'.commaPos = none ∧ p'.mem = p.mem ∧
      done.length + 1 ≤ done'.length ∧ p.pos = done.length := by
  cases h with
  | kept h hc =>
    have hskip : p.skipSpace = p := h.skipSpace_eq fun he => absurd (Option.some.inj he) (by decide)
    have hcall : p.parseComma false = .ok (true, p.next) := by
      unfold Parser.parseComma
      rw [hc]
      rw [if_neg (by decide), hskip, if_neg (not_not.mpr h.good), h.cur_cons, if_neg (by decide)]
    exact ⟨_, _, hcall, h.next, hc, rfl, by simp, h.pos⟩
  | cut text' h ht hc =>
    obtain rfl : text = text' := (List.cons.inj ht).2
    have hcall : p.parseComma false = .ok (true, { p with commaPos := none }.next) := by
      unfold Parser.parseComma
      rw [if_pos hc]
      rfl
    have hat : At { p with commaPos := none } done (0 :: text) extra := { h with }
    exact ⟨_, _, hcall, hat.next, rfl, rfl, by simp, h.pos⟩
  | last h ht => cases ht

/-- The parameters behind the first, each behind a comma and perhaps a space. -/
def writtenRest : List (Bool × Item) → List UInt8
  | [] => []
  | (space, item) :: items => 44 :: ((if space then [32] else []) ++ (item.written ++ writtenRest items))

/-- A list as it is written; there is no space before the first parameter. -/
def writtenList : List (Bool × Item) → List UInt8
  | [] => []
  | (_, item) :: items => item.written ++ writtenRest items

/-- A call of `parse_comma` before each parameter. -/
def parseRest : List (Bool × Item) → Parser → Except Error (List Value × Parser)
  | [], p => .ok ([], p)
  | (_, item) :: items, p =>
    match p.parseComma false with
    | .error e => .error e
    | .ok (_, p) =>
      match item.parse p with
      | .error e => .error e
      | .ok (v, p) => (parseRest items p).map fun (vs, p) => (v :: vs, p)

/-- The calls for a list. -/
def parseList : List (Bool × Item) → Parser → Except Error (List Value × Parser)
  | [], p => .ok ([], p)
  | (_, item) :: items, p =>
    match item.parse p with
    | .error e => .error e
    | .ok (v, p) => (parseRest items p).map fun (vs, p) => (v :: vs, p)

theorem ends_writtenRest (items : List (Bool × Item)) : Ends (writtenRest items) := by
  intro c hc
  cases items with
  | nil => cases hc
  | cons i items => exact (Option.some.inj hc).symm

/-- The parser skips the space before a parameter. -/
theorem Item.parse_space {item : Item} (h : At p done (32 :: text) extra) (hs : text.head? ≠ some 32) :
    item.parse p = item.parse p.skipSpace := by
  have hskip : p.skipSpace.skipSpace = p.skipSpace := h.skipSpace_space.skipSpace_eq hs
  have hempty : ∀ allow, p.checkEmptyParameter allow = p.skipSpace.checkEmptyParameter allow := by
    intro allow
    unfold Parser.checkEmptyParameter
    rw [hskip]
  cases item <;> simp only [Item.parse, Parser.parseInt, Parser.parseString, hempty]

/-- A parameter does not begin with a space. -/
theorem Item.written_head {item : Item} (hi : item.Ok) (ht : Ends tail) : (item.written ++ tail).head? ≠ some 32 := by
  have htail : tail.head? ≠ some 32 := fun h => absurd (ht 32 h) (by decide)
  cases item with
  | noString => exact htail
  | noInt => exact htail
  | int v =>
    obtain ⟨c, l, hcl, hc⟩ := intText_head v
    rw [Item.written, hcl, List.cons_append, List.head?_cons]
    intro h
    obtain rfl := Option.some.inj h
    exact absurd hc (by decide)
  | quoted s =>
    rw [Item.written, List.cons_append, List.head?_cons]
    exact fun h => absurd (Option.some.inj h) (by decide)
  | plain s =>
    obtain ⟨c, l, rfl⟩ : ∃ c l, s = c :: l := List.exists_cons_of_ne_nil hi.1
    exact hi.2.1

/-- The values of a list, in the memory the calls leave. -/
def AreValues (mem : List UInt8) (k : Nat) (items : List (Bool × Item)) (vs : List Value) : Prop :=
  List.Forall₂ (fun item v => item.2.Is mem k v) items vs

theorem parseRest_ok {items : List (Bool × Item)} (hok : ∀ i ∈ items, i.2.Ok) (h : Behind p done (writtenRest items) extra) :
    ∃ vs p', parseRest items p = .ok (vs, p') ∧ AreValues p'.mem (p'.pos + 1) items vs ∧ p'.cur = 0 ∧
      p'.mem.take (done.length + 1) = p.mem.take (done.length + 1) ∧ done.length ≤ p'.pos := by
  induction items generalizing p done with
  | nil =>
    have hend : p.cur = 0 ∧ p.pos = done.length := by
      cases h with
      | kept h hc => exact ⟨h.cur_nil, h.pos⟩
      | cut text h ht hc => cases ht
      | last h ht => exact ⟨h.cur_nil, h.pos⟩
    exact ⟨[], p, rfl, List.Forall₂.nil, hend.1, rfl, Nat.le_of_eq hend.2.symm⟩
  | cons i items ih =>
    obtain ⟨space, item⟩ := i
    have hitem : item.Ok := hok _ List.mem_cons_self
    have hends := ends_writtenRest items
    obtain ⟨p₁, done₁, hcomma, hat, hc, hmem₁, hlen₁, -⟩ := parseComma_behind h
    -- the space, if there is one, is skipped by the call
    obtain ⟨p₂, done₂, hat₂, hcall₂, hc₂, hmem₂, hle₂⟩ : ∃ p₂ done₂, At p₂ done₂ (item.written ++ writtenRest items) extra ∧
        item.parse p₁ = item.parse p₂ ∧ p₂.commaPos = none ∧ p₂.mem = p₁.mem ∧ done₁.length ≤ done₂.length := by
      cases space with
      | false => exact ⟨p₁, done₁, hat, rfl, hc, rfl, Nat.le_refl _⟩
      | true =>
        have hspace : At p₁ done₁ (32 :: (item.written ++ writtenRest items)) extra := hat
        have hskip : p₁.skipSpace = p₁.next := if_pos ⟨hspace.good, hspace.cur_cons⟩
        refine ⟨p₁.skipSpace, _, hspace.skipSpace_space, Item.parse_space hspace (Item.written_head hitem hends), ?_, ?_, ?_⟩
        · rw [hskip]
          exact hc
        · rw [hskip]
          rfl
        · simp
    obtain ⟨v, p₃, hcall, hparsed⟩ := Item.parse_ok hitem hat₂ hc₂ hends
    obtain ⟨done₃, hbehind, hle₃⟩ := hparsed.behind
    obtain ⟨vs, p', hrest, hvs, hcur, hkept, hle⟩ := ih (fun j hj => hok j (List.mem_cons_of_mem _ hj)) hbehind
    have hpos₂ := hat₂.pos
    have hpos₃ : p₃.pos = done₃.length := by
      cases hbehind with
      | kept h _ => exact h.pos
      | cut _ h _ _ => exact h.pos
      | last h _ => exact h.pos
    refine ⟨v :: vs, p', ?_, List.Forall₂.cons (hparsed.is.kept ?_ (by omega)) hvs, hcur, ?_, by omega⟩
    · rw [parseRest, hcomma]
      dsimp only
      rw [hcall₂, hcall]
      dsimp only
      rw [hrest]
      rfl
    · rw [hpos₃]
      exact hkept
    · -- nothing before the parameter was written
      have htake : ∀ {l l' : List UInt8} {a b : Nat}, b ≤ a → l.take a = l'.take a → l.take b = l'.take b := by
        intro l l' a b hab heq
        have := congrArg (List.take b) heq
        rwa [List.take_take, List.take_take, Nat.min_eq_left hab] at this
      calc p'.mem.take (done.length + 1) = p₃.mem.take (done.length + 1) := htake (by omega) hkept
        _ = p₂.mem.take (done.length + 1) := htake (by omega) hparsed.kept
        _ = p.mem.take (done.length + 1) := by rw [hmem₂, hmem₁]

theorem parseList_ok {items : List (Bool × Item)} (hok : ∀ i ∈ items, i.2.Ok) (h : At p done (writtenList items) extra)
    (hc : p.commaPos = none) :
    ∃ vs p', parseList items p = .ok (vs, p') ∧ AreValues p'.mem (p'.pos + 1) items vs ∧ p'.cur = 0 := by
  cases items with
  | nil => exact ⟨[], p, rfl, List.Forall₂.nil, h.cur_nil⟩
  | cons i items =>
    obtain ⟨space, item⟩ := i
    obtain ⟨v, p₁, hcall, hparsed⟩ := Item.parse_ok (hok _ List.mem_cons_self) h hc (ends_writtenRest items)
    obtain ⟨done₁, hbehind, -⟩ := hparsed.behind
    obtain ⟨vs, p', hrest, hvs, hcur, hkept, hle⟩ := parseRest_ok (fun j hj => hok j (List.mem_cons_of_mem _ hj)) hbehind
    have hpos₁ : p₁.pos = done₁.length := by
      cases hbehind with
      | kept h _ => exact h.pos
      | cut _ h _ _ => exact h.pos
      | last h _ => exact h.pos
    refine ⟨v :: vs, p', ?_, List.Forall₂.cons (hparsed.is.kept (by rw [hpos₁]; exact hkept) (by omega)) hvs, hcur⟩
    rw [parseList, hcall]
    dsimp only
    rw [hrest]
    rfl

/-- **Parameter lists**: for every list of parameters, written with commas and at most one space behind each, in a
buffer that holds the terminator, the calls succeed, give the values of the parameters, of which the strings are
still there in the memory the last call leaves, and end at the end of the line. -/
theorem param_list_parses_back (items : List (Bool × Item)) (extra : List UInt8) (len : Nat) (hok : ∀ i ∈ items, i.2.Ok)
    (hlen : (writtenList items).length < len) :
    ∃ vs p', parseList items { mem := writtenList items ++ 0 :: extra, eob := len } = .ok (vs, p') ∧
      AreValues p'.mem (p'.pos + 1) items vs ∧ p'.checkEol = .ok () := by
  have hat : At { mem := writtenList items ++ 0 :: extra, eob := len } [] (writtenList items) extra :=
    ⟨rfl, rfl, by simpa using hlen⟩
  obtain ⟨vs, p', hcall, hvs, hcur⟩ := parseList_ok hok hat rfl
  exact ⟨vs, p', hcall, hvs, if_pos hcur⟩

/-- `-12, "a,b",, xy` -/
def mixedList : List (Bool × Item) :=
  [(false, .int (-12)), (true, .quoted [97, 44, 98]), (false, .noString), (true, .plain [120, 121])]

theorem mixedList_parses_back :
    ∃ vs p', parseList mixedList { mem := writtenList mixedList ++ 0 :: [], eob := 32 } = .ok (vs, p') ∧
      AreValues p'.mem (p'.pos + 1) mixedList vs ∧ p'.checkEol = .ok () :=
  param_list_parses_back mixedList [] 32
    (by
      intro i hi
      simp only [mixedList, List.mem_cons, List.not_mem_nil, or_false] at hi
      rcases hi with rfl | rfl | rfl | rfl
      · exact ⟨by decide, by decide⟩
      · simp [Item.Ok]
      · trivial
      · simp [Item.Ok])
    (by simp [writtenList, writtenRest, mixedList, Item.written, intText, digitText])

end Isix.Gsm
