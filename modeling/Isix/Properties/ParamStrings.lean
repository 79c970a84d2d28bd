import Isix.Properties.ParamLists

/-!
# Isix.Properties.ParamStrings

Lists of strings and of parameter ranges parse back.  A string in quotation
marks is left in its place with a terminator instead of the closing mark, so the
memory behind the position is known exactly: `At` has it in `done`.

An unquoted string runs up to a comma, which is overwritten, and over the
closing parenthesis; a list with one does not parse.  The one `item` of
`parse_parameter_range_list` keeps the upper bound of the range before, and the
`parse_comma` that ends the loop takes one character more.
-/

namespace Isix.Gsm

variable {p : Parser} {done text extra s tail : List UInt8} {c d : UInt8}

/-! ## single steps -/

theorem parseChar_here {allow : Bool} (h : At p done (c :: text) extra) (hc : c ≠ 32) :
    p.parseChar c allow = .ok (true, p.next) := by
  unfold Parser.parseChar
  rw [h.skipSpace_eq fun he => hc (Option.some.inj he), if_neg (not_not.mpr h.good), h.cur_cons, if_neg (by simp)]

theorem parseChar_other (h : At p done (d :: text) extra) (hd : d ≠ 32) (hc : d ≠ c) :
    p.parseChar c true = .ok (false, p) := by
  unfold Parser.parseChar
  rw [h.skipSpace_eq fun he => hd (Option.some.inj he), if_neg (not_not.mpr h.good), h.cur_cons, if_pos hc, if_pos rfl]

/-- At most one space. -/
def space (b : Bool) : List UInt8 := if b then [32] else []

theorem skipSpace_space (b : Bool) (h : At p done (space b ++ (c :: text)) extra) (hc : c ≠ 32) :
    At p.skipSpace (done ++ space b) (c :: text) extra ∧ p.skipSpace.skipSpace = p.skipSpace ∧
      p.skipSpace.commaPos = p.commaPos := by
  have hne : (c :: text).head? ≠ some 32 := fun he => hc (Option.some.inj he)
  cases b with
  | false =>
    have hskip : p.skipSpace = p := h.skipSpace_eq hne
    rw [hskip]
    exact ⟨by simpa [space] using h, hskip, rfl⟩
  | true =>
    have hat : At p.skipSpace (done ++ [32]) (c :: text) extra := At.skipSpace_space h
    refine ⟨hat, hat.skipSpace_eq hne, ?_⟩
    unfold Parser.skipSpace
    split <;> rfl

/-- A string in quotation marks, perhaps behind a space. -/
theorem parseString_quoted (allow b : Bool) (h : At p done (space b ++ 34 :: (s ++ 34 :: tail)) extra)
    (hs : (Item.quoted s).Ok) :
    ∃ p', p.parseString allow false = .ok (some (done ++ space b ++ [34]).length, p') ∧
      At p' (done ++ space b ++ 34 :: (s ++ [0])) tail extra ∧ p'.commaPos = p.commaPos := by
  obtain ⟨hat, hskip, hcomma⟩ := skipSpace_space b h (by decide)
  have hempty : p.checkEmptyParameter allow = .ok (false, p.skipSpace) := by
    unfold Parser.checkEmptyParameter
    rw [if_neg (not_not.mpr hat.good), hat.cur_cons, if_neg (by decide)]
  have hnext := hat.next
  obtain ⟨hseek, -, hcomma'⟩ := hnext.seek hs (fun x hx => (Option.some.inj hx).symm)
  have hend := hseek.cut.next
  refine ⟨(p.skipSpace.next.seek 34).cut.next, ?_, ?_, ?_⟩
  · unfold Parser.parseString
    rw [hempty]
    dsimp only
    unfold Parser.doParseString
    rw [parseChar_here hat (by decide)]
    dsimp only
    rw [if_neg (by decide), if_neg (not_not.mpr hseek.good), hseek.cur_cons, if_neg (by decide), hnext.pos]
  · simpa using hend
  · exact hcomma'.trans hcomma

theorem parseInt_at {v : Int} (h : At p done (intText v ++ tail) extra) (hv : (Item.int v).Ok)
    (ht : ∀ c ∈ tail.head?, isDigit c = false) :
    ∃ p', p.parseInt false = .ok (v, p') ∧ At p' (done ++ intText v) tail extra ∧ p'.commaPos = p.commaPos := by
  obtain ⟨c, l, hcl, hcd⟩ := intText_head v
  have hempty : p.checkEmptyParameter false = .ok (false, p) := by
    rw [hcl] at h
    refine checkEmpty_text h ?_ ?_ ?_ <;> rintro rfl <;> exact absurd hcd (by decide)
  obtain ⟨p', hp', hat, -, hcomma⟩ := doParseInt_intText (k := 0) h ht
  rw [List.replicate_zero, List.append_nil] at hat
  refine ⟨p', ?_, hat, hcomma⟩
  unfold Parser.parseInt
  rw [hempty]
  dsimp only
  rw [hp', clamp_eq hv.1 hv.2]

/-- A comma that is there is taken, also one that was expected to be overwritten. -/
theorem parseComma_here (h : At p done (44 :: text) extra) :
    ∃ p', p.parseComma false = .ok (true, p') ∧ At p' (done ++ [44]) text extra ∧ p'.commaPos = none := by
  have hskip : p.skipSpace = p := h.skipSpace_eq fun he => absurd (Option.some.inj he) (by decide)
  unfold Parser.parseComma
  cases hc : p.commaPos with
  | none =>
    refine ⟨p.next, ?_, h.next, hc⟩
    rw [if_neg (by decide), hskip, if_neg (not_not.mpr h.good), h.cur_cons, if_neg (by decide)]
  | some k =>
    have hat : At { p with commaPos := none } done (44 :: text) extra := { h with }
    exact ⟨_, rfl, hat.next, rfl⟩

/-! ## lists of strings -/

/-- An element of a list of strings, perhaps behind a space. -/
structure StringItem where
  space : Bool
  quoted : Bool
  s : List UInt8

namespace StringItem

/-- The strings that can be written. -/
def Ok (i : StringItem) : Prop :=
  if i.quoted then (Item.quoted i.s).Ok
  else i.s ≠ [] ∧ i.s.head? ≠ some 32 ∧ ∀ c ∈ i.s, c ≠ 0 ∧ c ≠ 44 ∧ c ≠ 34 ∧ c ≠ 40 ∧ c ≠ 41

def written (i : StringItem) : List UInt8 := Gsm.space i.space ++ if i.quoted then 34 :: (i.s ++ [34]) else i.s

end StringItem

variable {i : StringItem} {rest : List StringItem}

/-- The strings of a list and the closing parenthesis. -/
def stringsText (i : StringItem) : List StringItem → List UInt8
  | [] => i.written ++ [41]
  | j :: rest => i.written ++ 44 :: stringsText j rest

def stringListText : List StringItem → List UInt8
  | [] => [40, 41]
  | i :: rest => 40 :: stringsText i rest

/-- The strings stand at the positions. -/
def Strings (mem : List UInt8) (k : Nat) (is : List StringItem) (result : List (Option Nat)) : Prop :=
  List.Forall₂ (fun i a => ∃ b, a = some b ∧ TextAt mem k b i.s) is result

/-- A string that was returned lies behind the position. -/
theorem textAt_done {pre post : List UInt8} (h : At p (pre ++ 34 :: (s ++ [0]) ++ post) text extra) :
    TextAt p.mem p.pos (pre ++ [34]).length s := by
  refine ⟨pre ++ [34], post ++ (text ++ 0 :: extra), by rw [h.mem]; simp, rfl, ?_⟩
  rw [h.pos]
  simp only [List.length_append, List.length_cons, List.length_nil]
  omega

theorem StringItem.parse_quoted (hq : i.quoted = true) (hok : i.Ok) (h : At p done (i.written ++ tail) extra) :
    ∃ p', p.parseString false false = .ok (some (done ++ Gsm.space i.space ++ [34]).length, p') ∧
      At p' (done ++ Gsm.space i.space ++ 34 :: (i.s ++ [0])) tail extra := by
  have hs : (Item.quoted i.s).Ok := by rwa [StringItem.Ok, if_pos hq] at hok
  have h' : At p done (Gsm.space i.space ++ 34 :: (i.s ++ 34 :: tail)) extra := by
    simpa [StringItem.written, hq] using h
  obtain ⟨p', hp', hat, -⟩ := parseString_quoted false i.space h' hs
  exact ⟨p', hp', hat⟩

/-- A loop stops at the character or at the end of the text, which is in the buffer. -/
theorem At.seekLoop_stops {stop : UInt8} {fuel : Nat} (h : At p done text extra) (hf : text.length < fuel) :
    (Parser.seekLoop stop fuel p).good = true ∧
      ((Parser.seekLoop stop fuel p).cur = stop ∨ (Parser.seekLoop stop fuel p).cur = 0) := by
  induction text generalizing p done fuel with
  | nil =>
    obtain ⟨fuel, rfl⟩ : ∃ n, fuel = n + 1 := ⟨fuel - 1, by omega⟩
    rw [Parser.seekLoop, if_neg fun hc => hc.2.1 h.cur_nil]
    exact ⟨h.good, .inr h.cur_nil⟩
  | cons c text ih =>
    obtain ⟨fuel, rfl⟩ : ∃ n, fuel = n + 1 := ⟨fuel - 1, by omega⟩
    rw [Parser.seekLoop]
    split
    next => exact ih h.next (Nat.lt_of_succ_lt_succ hf)
    next hc =>
      have hstop : p.cur = stop ∨ p.cur = 0 := by
        by_contra hno
        exact hc ⟨h.good, fun h0 => hno (.inr h0), fun hs => hno (.inl hs)⟩
      exact ⟨h.good, hstop⟩

theorem At.seek_stops (stop : UInt8) (h : At p done text extra) :
    (p.seek stop).good = true ∧ ((p.seek stop).cur = stop ∨ (p.seek stop).cur = 0) := by
  refine h.seekLoop_stops ?_
  have hroom := h.room
  have hpos := h.pos
  omega

theorem cur_cut (p : Parser) : p.cut.cur = 0 := by
  simp only [Parser.cut, Parser.cur, List.getD_eq_getElem?_getD, List.getElem?_set_self']
  cases p.mem[p.pos]? <;> rfl

/-- Behind a string without quotation marks there is a terminator: it is at the end of the text, or at a comma that was
overwritten. -/
theorem StringItem.parse_plain (hq : i.quoted = false) (hok : i.Ok) (h : At p done (i.written ++ tail) extra) :
    ∃ a p', p.parseString false false = .ok (a, p') ∧ p'.cur = 0 := by
  rw [StringItem.Ok, if_neg (by simp [hq])] at hok
  obtain ⟨hne, hhead, hall⟩ := hok
  obtain ⟨c, l, hcl⟩ : ∃ c l, i.s = c :: l := List.exists_cons_of_ne_nil hne
  rw [hcl] at hhead hall
  have h32 : c ≠ 32 := fun he => hhead (by rw [he]; rfl)
  obtain ⟨h0, h44, h34, -, -⟩ := hall c List.mem_cons_self
  have h' : At p done (Gsm.space i.space ++ c :: (l ++ tail)) extra := by
    simpa [StringItem.written, hq, hcl] using h
  obtain ⟨hat, hskip, -⟩ := skipSpace_space i.space h' h32
  have hempty : p.checkEmptyParameter false = .ok (false, p.skipSpace) := by
    unfold Parser.checkEmptyParameter
    rw [if_neg (not_not.mpr hat.good), hat.cur_cons, if_neg (by simp [h44, h0])]
  obtain ⟨hgood, hcur⟩ := hat.seek_stops 44
  unfold Parser.parseString
  rw [hempty]
  dsimp only
  unfold Parser.doParseString
  rw [parseChar_other hat h32 h34]
  dsimp only
  rw [if_neg (not_not.mpr hgood)]
  split
  next => exact ⟨_, _, rfl, cur_cut _⟩
  next hne => exact ⟨_, _, rfl, hcur.resolve_left hne⟩

theorem stringListLoop_ok {fuel : Nat} (result : List (Option Nat)) (hok : ∀ j ∈ i :: rest, j.Ok)
    (hq : ∀ j ∈ i :: rest, j.quoted = true) (h : At p done (stringsText i rest ++ tail) extra)
    (hf : rest.length < fuel) :
    ∃ ps p' more, Parser.stringListLoop fuel result p = .ok (result ++ ps, p') ∧ At p' (done ++ more) tail extra ∧
      more.length = (stringsText i rest).length ∧ Strings p'.mem p'.pos (i :: rest) ps := by
  obtain ⟨fuel, rfl⟩ : ∃ n, fuel = n + 1 := ⟨fuel - 1, by omega⟩
  have hqi := hq i List.mem_cons_self
  induction rest generalizing i p done fuel result with
  | nil =>
    have h' : At p done (i.written ++ 41 :: tail) extra := by simpa [stringsText] using h
    obtain ⟨p₁, hp₁, h₁⟩ := StringItem.parse_quoted hqi (hok i List.mem_cons_self) h'
    refine ⟨[some (done ++ space i.space ++ [34]).length], p₁.next, space i.space ++ 34 :: (i.s ++ [0]) ++ [41], ?_, ?_,
      by simp [stringsText, StringItem.written, hqi], ?_⟩
    · rw [Parser.stringListLoop, if_neg (not_not.mpr h.good), hp₁]
      dsimp only
      rw [h₁.cur_cons, if_pos rfl]
    · simpa using h₁.next
    · exact .cons ⟨_, rfl, textAt_done h₁.next⟩ .nil
  | cons j rest ih =>
    have h' : At p done (i.written ++ 44 :: (stringsText j rest ++ tail)) extra := by simpa [stringsText] using h
    obtain ⟨p₁, hp₁, h₁⟩ := StringItem.parse_quoted hqi (hok i List.mem_cons_self) h'
    have hqr : ∀ k ∈ j :: rest, k.quoted = true := fun k hk => hq k (List.mem_cons_of_mem _ hk)
    obtain ⟨fuel, rfl⟩ : ∃ n, fuel = n + 1 := ⟨fuel - 1, by simp only [List.length_cons] at hf; omega⟩
    obtain ⟨ps, p', more, hloop, hat, hlen, hstr⟩ := ih (result ++ [some (done ++ space i.space ++ [34]).length])
      (fun k hk => hok k (List.mem_cons_of_mem _ hk)) hqr h₁.next fuel (Nat.lt_of_succ_lt_succ hf) (hqr j List.mem_cons_self)
    refine ⟨some (done ++ space i.space ++ [34]).length :: ps, p', space i.space ++ 34 :: (i.s ++ [0]) ++ 44 :: more,
      ?_, ?_, ?_, ?_⟩
    · rw [Parser.stringListLoop, if_neg (not_not.mpr h.good), hp₁]
      dsimp only
      rw [h₁.cur_cons, if_neg (by decide), if_neg (by decide), if_neg (by decide), hloop, List.append_assoc,
        List.singleton_append]
    · simpa using hat
    · simp [stringsText, StringItem.written, hqi, hlen]
    · exact .cons ⟨_, rfl, textAt_done (by simpa using hat)⟩ hstr

/-- A string without quotation marks ends the list with an error. -/
theorem stringListLoop_fails {fuel : Nat} (result : List (Option Nat)) (hok : ∀ j ∈ i :: rest, j.Ok)
    (hq : ∃ j ∈ i :: rest, j.quoted = false) (h : At p done (stringsText i rest ++ tail) extra)
    (hf : rest.length < fuel) : Parser.stringListLoop fuel result p = .error .unexpectedEof := by
  induction rest generalizing i p done fuel result with
  | nil =>
    obtain ⟨fuel, rfl⟩ : ∃ n, fuel = n + 1 := ⟨fuel - 1, by omega⟩
    obtain ⟨j, hj, hqj⟩ := hq
    obtain rfl := List.mem_singleton.mp hj
    have h' : At p done (j.written ++ 41 :: tail) extra := by simpa [stringsText] using h
    obtain ⟨a, p₁, hp₁, hcur⟩ := StringItem.parse_plain hqj (hok j hj) h'
    rw [Parser.stringListLoop, if_neg (not_not.mpr h.good), hp₁]
    dsimp only
    rw [hcur, if_neg (by decide), if_pos rfl]
  | cons j rest ih =>
    obtain ⟨fuel, rfl⟩ : ∃ n, fuel = n + 1 := ⟨fuel - 1, by omega⟩
    have h' : At p done (i.written ++ 44 :: (stringsText j rest ++ tail)) extra := by simpa [stringsText] using h
    rw [Parser.stringListLoop, if_neg (not_not.mpr h.good)]
    cases hqi : i.quoted with
    | false =>
      obtain ⟨a, p₁, hp₁, hcur⟩ := StringItem.parse_plain hqi (hok i List.mem_cons_self) h'
      rw [hp₁]
      dsimp only
      rw [hcur, if_neg (by decide), if_pos rfl]
    | true =>
      obtain ⟨p₁, hp₁, h₁⟩ := StringItem.parse_quoted hqi (hok i List.mem_cons_self) h'
      rw [hp₁]
      dsimp only
      rw [h₁.cur_cons, if_neg (by decide), if_neg (by decide), if_neg (by decide)]
      refine ih _ (fun k hk => hok k (List.mem_cons_of_mem _ hk)) ?_ h₁.next (Nat.lt_of_succ_lt_succ hf)
      obtain ⟨k, hk, hqk⟩ := hq
      rcases List.mem_cons.mp hk with rfl | hk
      · exact absurd (hqi.symm.trans hqk) (by decide)
      · exact ⟨k, hk, hqk⟩

theorem length_lt_stringsText (i : StringItem) (rest : List StringItem) :
    rest.length < (stringsText i rest).length := by
  induction rest generalizing i with
  | nil => simp [stringsText]
  | cons j rest ih =>
    have hrest := ih j
    simp only [stringsText, List.length_append, List.length_cons]
    omega

/-- A string starts with a space, a quotation mark or a character of its own. -/
theorem StringItem.written_head (hok : i.Ok) : ∃ c l, i.written = c :: l ∧ c ≠ 0 ∧ c ≠ 41 := by
  cases hs : i.space with
  | true => exact ⟨32, _, by rw [StringItem.written, hs]; rfl, by decide, by decide⟩
  | false =>
    cases hq : i.quoted with
    | true => exact ⟨34, _, by simp [StringItem.written, Gsm.space, hs, hq]; rfl, by decide, by decide⟩
    | false =>
      rw [StringItem.Ok, if_neg (by simp [hq])] at hok
      obtain ⟨c, l, hcl⟩ := List.exists_cons_of_ne_nil hok.1
      have hc := hok.2.2 c (by rw [hcl]; exact List.mem_cons_self)
      exact ⟨c, l, by simp [StringItem.written, Gsm.space, hs, hq, hcl], hc.1, hc.2.2.2.2⟩

/-- `parse_string_list` runs its loop over the strings. -/
theorem parseStringList_loop {allow : Bool} (hok : ∀ j ∈ i :: rest, j.Ok)
    (h : At p done (40 :: stringsText i rest ++ tail) extra) :
    p.parseStringList allow = match Parser.stringListLoop p.next.eob [] p.next with
      | .error e => .error e
      | .ok (result, p) => if ¬p.good then .error .bufOverflow else .ok (result, p) := by
  have hempty : p.checkEmptyParameter allow = .ok (false, p) := checkEmpty_text h (by decide) (by decide) (by decide)
  have hnext : At p.next (done ++ [40]) (stringsText i rest ++ tail) extra := At.next h
  obtain ⟨c, l, hcl, h0, h41⟩ := StringItem.written_head (hok i List.mem_cons_self)
  obtain ⟨text, htext⟩ : ∃ text, stringsText i rest ++ tail = c :: text := by
    cases rest <;> simp [stringsText, hcl]
  rw [htext] at hnext
  unfold Parser.parseStringList
  rw [hempty]
  dsimp only
  rw [parseChar_here h (by decide)]
  dsimp only
  rewrite [if_neg (not_not.mpr hnext.good), hnext.cur_cons, if_pos ⟨h0, h41⟩]
  rfl

/-- The strings come back exactly when there are some and all are in quotation marks. -/
theorem parseStringList_iff {allow : Bool} {items : List StringItem} (hok : ∀ j ∈ items, j.Ok)
    (h : At p done (stringListText items ++ tail) extra) :
    (∃ ps p', p.parseStringList allow = .ok (ps, p') ∧ Strings p'.mem p'.pos items ps ∧
        p'.pos = p.pos + (stringListText items).length) ↔
      items ≠ [] ∧ ∀ j ∈ items, j.quoted = true := by
  cases items with
  | nil =>
    have hempty : p.checkEmptyParameter allow = .ok (false, p) :=
      checkEmpty_text h (by decide) (by decide) (by decide)
    have hnext : At p.next (done ++ [40]) (41 :: tail) extra := At.next h
    have hparse : p.parseStringList allow = .ok ([], p.next) := by
      unfold Parser.parseStringList
      rw [hempty]
      dsimp only
      rw [parseChar_here h (by decide)]
      dsimp only
      rw [if_neg (not_not.mpr hnext.good), hnext.cur_cons, if_neg (by decide)]
      dsimp only
      rw [if_neg (not_not.mpr hnext.good)]
    refine ⟨?_, fun hc => absurd rfl hc.1⟩
    rintro ⟨ps, p', hp', -, hpos⟩
    rw [hparse] at hp'
    cases hp'
    -- the parenthesis is not taken
    exact absurd hpos (Nat.ne_of_lt (Nat.lt_succ_self _))
  | cons i rest =>
    have hnext : At p.next (done ++ [40]) (stringsText i rest ++ tail) extra := At.next h
    have hfuel : rest.length < p.next.eob := by
      have hlen := length_lt_stringsText i rest
      have hroom := hnext.room
      rw [List.length_append, List.length_append] at hroom
      omega
    rw [parseStringList_loop hok h]
    constructor
    · rintro ⟨ps, p', hp', -⟩
      refine ⟨by simp, ?_⟩
      by_contra hno
      have hq : ∃ j ∈ i :: rest, j.quoted = false := by
        simpa only [not_forall, exists_prop, Bool.not_eq_true] using hno
      rw [stringListLoop_fails [] hok hq hnext hfuel] at hp'
      cases hp'
    · rintro ⟨-, hq⟩
      obtain ⟨ps, p', more, hloop, hat, hlen, hstr⟩ := stringListLoop_ok [] hok hq hnext hfuel
      refine ⟨ps, p', ?_, hstr, ?_⟩
      · rw [hloop]
        dsimp only
        rw [if_neg (not_not.mpr hat.good), List.nil_append]
      · rw [hat.pos, h.pos]
        simp only [stringListText, List.length_append, List.length_cons, List.length_nil, hlen]
        omega

/-! ## lists of parameter ranges -/

/-- `("name",(low-high))`, or `("name",(low))`. -/
structure RangeItem where
  name : List UInt8
  low : Int
  high : Option Int

namespace RangeItem

structure Ok (r : RangeItem) : Prop where
  name : (Item.quoted r.name).Ok
  low : (Item.int r.low).Ok
  high : ∀ v ∈ r.high, (Item.int v).Ok

/-- The range, between the parentheses. -/
def rangeText (r : RangeItem) : List UInt8 := intText r.low ++ r.high.elim [] fun v => 45 :: intText v

/-- The item, with `mark` for the closing quotation mark. -/
def written (r : RangeItem) (mark : UInt8) : List UInt8 :=
  40 :: 34 :: (r.name ++ mark :: 44 :: 40 :: (r.rangeText ++ [41, 41]))

end RangeItem

variable {r : RangeItem}

theorem parseRange_ok (hr : r.Ok) (result : IntRange)
    (h : At p done (40 :: (r.rangeText ++ 41 :: tail)) extra) :
    ∃ p', p.parseRange result false true = .ok ({ high := r.high.getD result.high, low := r.low }, p') ∧
      At p' (done ++ 40 :: (r.rangeText ++ [41])) tail extra ∧ p'.commaPos = p.commaPos := by
  have hempty : p.checkEmptyParameter false = .ok (false, p) := checkEmpty_text h (by decide) (by decide) (by decide)
  have hopen := h.next
  unfold Parser.parseRange
  rw [hempty]
  dsimp only
  rw [parseChar_here h (by decide)]
  cases hhigh : r.high with
  | none =>
    have hlow : At p.next (done ++ [40]) (intText r.low ++ 41 :: tail) extra := by
      simpa [RangeItem.rangeText, hhigh] using hopen
    obtain ⟨p₁, hp₁, h₁, hc₁⟩ := parseInt_at hlow hr.low (by rintro c hc; cases hc; rfl)
    refine ⟨p₁.next, ?_, ?_, hc₁⟩
    · simp only [bind, Except.bind, hp₁, parseChar_other h₁ (by decide) (by decide : (41 : UInt8) ≠ 45),
        parseChar_here h₁ (by decide), Bool.false_eq_true, if_false, Option.getD_none]
    · simpa [RangeItem.rangeText, hhigh] using h₁.next
  | some v =>
    have hlow : At p.next (done ++ [40]) (intText r.low ++ 45 :: (intText v ++ 41 :: tail)) extra := by
      simpa [RangeItem.rangeText, hhigh] using hopen
    obtain ⟨p₁, hp₁, h₁, hc₁⟩ := parseInt_at hlow hr.low (by rintro c hc; cases hc; rfl)
    obtain ⟨p₂, hp₂, h₂, hc₂⟩ := parseInt_at h₁.next (hr.high v hhigh) (by rintro c hc; cases hc; rfl)
    refine ⟨p₂.next, ?_, ?_, hc₂.trans hc₁⟩
    · simp only [bind, Except.bind, hp₁, parseChar_here h₁ (by decide), hp₂, parseChar_here h₂ (by decide), if_true,
        Option.getD_some]
    · simpa [RangeItem.rangeText, hhigh] using h₂.next

theorem parseParameterRange_ok (hr : r.Ok) (item : ParameterRange)
    (h : At p done (r.written 34 ++ tail) extra) :
    ∃ p', p.parseParameterRange item false =
        .ok (⟨some (done ++ [40] ++ [34]).length, ⟨r.high.getD item.range.high, r.low⟩⟩, p') ∧
      At p' (done ++ r.written 0) tail extra ∧ p'.commaPos = none := by
  have hempty : p.checkEmptyParameter false = .ok (false, p) := checkEmpty_text h (by decide) (by decide) (by decide)
  have hopen : At p.next (done ++ [40])
      (space false ++ 34 :: (r.name ++ 34 :: 44 :: 40 :: (r.rangeText ++ 41 :: 41 :: tail))) extra := by
    simpa [RangeItem.written, space] using At.next h
  obtain ⟨p₁, hp₁, h₁, -⟩ := parseString_quoted false false hopen hr.name
  obtain ⟨p₂, hp₂, h₂, hc₂⟩ := parseComma_here h₁
  obtain ⟨p₃, hp₃, h₃, hc₃⟩ := parseRange_ok hr item.range h₂
  refine ⟨p₃.next, ?_, ?_, hc₃.trans hc₂⟩
  · unfold Parser.parseParameterRange
    rw [hempty]
    dsimp only
    rw [parseChar_here h (by decide)]
    simp only [bind, Except.bind, hp₁, hp₂, hp₃, parseChar_here h₃ (by decide)]
    simp [space]
  · simpa [RangeItem.written, space] using h₃.next

/-- How many spaces are skipped. -/
def spaces (tail : List UInt8) : Nat := if tail.head? = some 32 then 1 else 0

theorem At.skipSpace (h : At p done tail extra) :
    At p.skipSpace (done ++ tail.take (spaces tail)) (tail.drop (spaces tail)) extra ∧ p.skipSpace.mem = p.mem := by
  by_cases hs : tail.head? = some 32
  · obtain ⟨text, rfl⟩ : ∃ text, tail = 32 :: text := by
      cases tail with
      | nil => cases hs
      | cons c text => exact ⟨text, by rw [Option.some.inj hs]⟩
    have hskip : p.skipSpace = p.next := if_pos ⟨h.good, h.cur_cons⟩
    exact ⟨by simpa [spaces] using h.skipSpace_space, by rw [hskip]; rfl⟩
  · rw [h.skipSpace_eq hs]
    simpa [spaces, hs] using h

/-- `parse_comma(true)` takes the next character, whether it is a comma or not. -/
theorem parseComma_next (h : At p done tail extra) (hc : p.commaPos = none) :
    ∃ p', p.parseComma true = .ok (decide ((tail.drop (spaces tail)).head? = some 44), p') ∧
      p'.pos = done.length + (tail.take (spaces tail)).length + 1 ∧ p'.mem = p.mem := by
  obtain ⟨hat, hmem⟩ := h.skipSpace
  have hcur : p.skipSpace.cur = 44 ↔ (tail.drop (spaces tail)).head? = some 44 := by
    cases hd : tail.drop (spaces tail) with
    | nil =>
      rw [hd] at hat
      rw [hat.cur_nil]
      simp
    | cons c text =>
      rw [hd] at hat
      rw [hat.cur_cons]
      simp
  refine ⟨p.skipSpace.next, ?_, ?_, hmem⟩
  · unfold Parser.parseComma
    rw [hc]
    rw [if_neg (by decide), if_neg (not_not.mpr hat.good)]
    by_cases h44 : p.skipSpace.cur = 44
    · rw [if_neg (not_not.mpr h44), decide_eq_true (hcur.mp h44)]
    · rw [if_pos h44, if_pos rfl, decide_eq_false (mt hcur.mpr h44)]
  · rw [← List.length_append, ← hat.pos]
    rfl

theorem parseComma_true (h : At p done (44 :: text) extra) (hc : p.commaPos = none) :
    p.parseComma true = .ok (true, p.next) := by
  have hskip : p.skipSpace = p := h.skipSpace_eq fun he => absurd (Option.some.inj he) (by decide)
  unfold Parser.parseComma
  rw [hc]
  rw [if_neg (by decide), hskip, if_neg (not_not.mpr h.good), h.cur_cons, if_neg (by decide)]

/-- The items behind the first. -/
def rangesText (rs : List RangeItem) : List UInt8 := rs.flatMap fun r => 44 :: r.written 34

/-- The result `x` is the item `r`. -/
def RangeItem.Is (mem : List UInt8) (k : Nat) (r : RangeItem) (x : ParameterRange) : Prop :=
  (∃ a, x.parameter = some a ∧ TextAt mem k a r.name) ∧ x.range = { high := r.high.getD notSet, low := r.low }

theorem textAt_written {mem post : List UInt8} {k : Nat} (hmem : mem = done ++ r.written 0 ++ post)
    (hk : (done ++ r.written 0).length ≤ k) : TextAt mem k (done ++ [40] ++ [34]).length r.name := by
  refine ⟨done ++ [40] ++ [34], 44 :: 40 :: (r.rangeText ++ [41, 41]) ++ post, ?_, rfl, ?_⟩
  · rw [hmem]
    simp [RangeItem.written]
  · simp only [RangeItem.written, List.length_append, List.length_cons, List.length_nil] at hk ⊢
    omega

theorem length_written (r : RangeItem) (mark : UInt8) : (r.written mark).length = (r.written 0).length := by
  simp [RangeItem.written]

/-- What the one item of the loop holds after each turn: an upper bound stays until the next. -/
def carried (v : Int) : List RangeItem → List RangeItem
  | [] => []
  | r :: rs => { r with high := some (r.high.getD v) } :: carried (r.high.getD v) rs

/-- Where an item has no upper bound, the one before that has it, if any, has -1, which stands for none. -/
def Fresh (v : Int) : List RangeItem → Prop
  | [] => True
  | r :: rs => (r.high = none → v = notSet) ∧ Fresh (r.high.getD v) rs

theorem length_carried (v : Int) (rs : List RangeItem) : (carried v rs).length = rs.length := by
  induction rs generalizing v with
  | nil => rfl
  | cons r rs ih => exact congrArg (· + 1) (ih _)

/-- The items come out as they are when no upper bound is left from before. -/
theorem forall₂_carried {mem : List UInt8} {k : Nat} {v : Int} {rs : List RangeItem} {xs : List ParameterRange}
    (h : List.Forall₂ (RangeItem.Is mem k) (carried v rs) xs) :
    List.Forall₂ (RangeItem.Is mem k) rs xs ↔ Fresh v rs := by
  induction rs generalizing v xs with
  | nil => simpa [carried, Fresh] using h
  | cons r rs ih =>
    obtain ⟨x, xs, hx, hxs, rfl⟩ : ∃ x xs', RangeItem.Is mem k { r with high := some (r.high.getD v) } x ∧
        List.Forall₂ (RangeItem.Is mem k) (carried (r.high.getD v) rs) xs' ∧ xs = x :: xs' := by
      cases h with
      | cons hx hxs => exact ⟨_, _, hx, hxs, rfl⟩
    rw [List.forall₂_cons, ih hxs, Fresh]
    refine and_congr_left fun _ => ?_
    have hrange : x.range = ⟨r.high.getD v, r.low⟩ := hx.2
    cases hv : r.high with
    | some w =>
      rw [hv] at hrange
      exact ⟨fun _ => by simp, fun _ => ⟨hx.1, by rw [hrange, hv]; rfl⟩⟩
    | none =>
      rw [hv] at hrange
      constructor
      · intro his _
        have heq := hrange.symm.trans his.2
        rw [hv] at heq
        exact congrArg IntRange.high heq
      · intro hset
        exact ⟨hx.1, by rw [hrange, hv, hset rfl]⟩

/-- The loop takes the items, up to what is behind them. -/
theorem rangeListLoop_items (fuel : Nat) (item : ParameterRange) (result : List ParameterRange) {rs : List RangeItem}
    (hok : ∀ r ∈ rs, r.Ok) (h : At p done (rangesText rs ++ tail) extra) (hc : p.commaPos = none) :
    ∃ xs q more last, Parser.rangeListLoop (rs.length + fuel) item result p =
        Parser.rangeListLoop fuel last (result ++ xs) q ∧
      At q (done ++ more) tail extra ∧ q.commaPos = none ∧ more.length = (rangesText rs).length ∧
      List.Forall₂ (RangeItem.Is q.mem q.pos) (carried item.range.high rs) xs := by
  induction rs generalizing p done item result with
  | nil =>
    refine ⟨[], p, [], item, ?_, by simpa [rangesText] using h, hc, rfl, .nil⟩
    rw [List.length_nil, Nat.zero_add, List.append_nil]
  | cons r rs ih =>
    have hcomma : At p done (44 :: (r.written 34 ++ (rangesText rs ++ tail))) extra := by
      simpa [rangesText] using h
    obtain ⟨p₁, hp₁, h₁, hc₁⟩ := parseParameterRange_ok (hok r List.mem_cons_self) item hcomma.next
    let next : ParameterRange := ⟨some (done ++ [44] ++ [40] ++ [34]).length, ⟨r.high.getD item.range.high, r.low⟩⟩
    obtain ⟨xs, q, more, last, hloop, hat, hcq, hlen, hxs⟩ := ih next (result ++ [next])
      (fun r' hr' => hok r' (List.mem_cons_of_mem _ hr')) h₁ hc₁
    refine ⟨next :: xs, q, 44 :: (r.written 0 ++ more), last, ?_, by simpa using hat, hcq, ?_,
      .cons ⟨⟨_, rfl, ?_⟩, rfl⟩ hxs⟩
    · rw [List.length_cons, Nat.add_right_comm, Parser.rangeListLoop, parseComma_true hcomma hc]
      dsimp only
      rw [hp₁]
      dsimp only
      rw [hloop, List.append_assoc, List.singleton_append]
    · simp only [rangesText, List.flatMap_cons, List.length_append, List.length_cons, length_written r 34] at hlen ⊢
      omega
    · have hmem : q.mem = done ++ [44] ++ r.written 0 ++ (more ++ (tail ++ 0 :: extra)) := by
        rw [hat.mem]
        simp
      refine textAt_written (r := r) hmem ?_
      rw [hat.pos]
      simp

/-- The loop only adds to the result. -/
theorem length_rangeListLoop {fuel : Nat} {item : ParameterRange} {result xs : List ParameterRange} {p' : Parser}
    (h : Parser.rangeListLoop fuel item result p = .ok (xs, p')) : result.length ≤ xs.length := by
  induction fuel generalizing item result p with
  | zero => cases h; exact Nat.le_refl _
  | succ fuel ih =>
    unfold Parser.rangeListLoop at h
    split at h
    · cases h
    · cases h
      exact Nat.le_refl _
    · split at h
      · cases h
      · have hle := ih h
        rw [List.length_append] at hle
        exact Nat.le_of_add_right_le hle

/-- Behind the items, a comma brings an error or one more item. -/
theorem rangeListLoop_end (fuel : Nat) (item : ParameterRange) (result : List ParameterRange)
    (h : At p done tail extra) (hc : p.commaPos = none) :
    if (tail.drop (spaces tail)).head? = some 44 then
      ∀ xs p', Parser.rangeListLoop (fuel + 1) item result p = .ok (xs, p') → result.length < xs.length
    else ∃ p', Parser.rangeListLoop (fuel + 1) item result p = .ok (result, p') ∧ p'.mem = p.mem ∧
      p'.pos = p.pos + (tail.take (spaces tail)).length + 1 := by
  obtain ⟨p', hp', hpos, hmem⟩ := parseComma_next h hc
  rw [Parser.rangeListLoop, hp']
  split
  next hcomma =>
    rw [decide_eq_true hcomma]
    dsimp only
    intro xs q hq
    split at hq
    · cases hq
    · have hle := length_rangeListLoop hq
      rw [List.length_append] at hle
      exact hle
  next hno =>
    rw [decide_eq_false hno]
    exact ⟨p', rfl, hmem, by rw [hpos, h.pos]⟩

theorem length_le_rangesText (rs : List RangeItem) : rs.length ≤ (rangesText rs).length := by
  induction rs with
  | nil => simp [rangesText]
  | cons r rs ih =>
    simp only [rangesText, List.flatMap_cons, List.length_append, List.length_cons] at ih ⊢
    omega

/-- What `parse_parameter_range_list` returns for a list. -/
theorem parseParameterRangeList_eq (allow : Bool) {rs : List RangeItem} (hok : ∀ r' ∈ r :: rs, r'.Ok)
    (h : At p done (r.written 34 ++ (rangesText rs ++ tail)) extra) :
    if (tail.drop (spaces tail)).head? = some 44 then
      ∀ xs p', p.parseParameterRangeList allow = .ok (xs, p') → (r :: rs).length < xs.length
    else ∃ xs p', p.parseParameterRangeList allow = .ok (xs, p') ∧
      List.Forall₂ (RangeItem.Is p'.mem p'.pos) (carried notSet (r :: rs)) xs ∧
      p'.pos = p.pos + (r.written 34 ++ rangesText rs).length + (tail.take (spaces tail)).length + 1 := by
  have hempty : p.checkEmptyParameter allow = .ok (false, p) := checkEmpty_text h (by decide) (by decide) (by decide)
  obtain ⟨p₁, hp₁, h₁, hc₁⟩ := parseParameterRange_ok (hok r List.mem_cons_self) {} h
  let first : ParameterRange := ⟨some (done ++ [40] ++ [34]).length, ⟨r.high.getD notSet, r.low⟩⟩
  obtain ⟨fuel, hfuel⟩ : ∃ fuel, p₁.eob = rs.length + (fuel + 1) := by
    have hlen := length_le_rangesText rs
    have hroom := h₁.room
    simp only [List.length_append] at hroom
    exact ⟨p₁.eob - rs.length - 1, by omega⟩
  obtain ⟨xs, q, more, last, hloop, hat, hcq, hlen, hxs⟩ := rangeListLoop_items (fuel + 1) first [first]
    (fun r' hr' => hok r' (List.mem_cons_of_mem _ hr')) h₁ hc₁
  have hparse : p.parseParameterRangeList allow = Parser.rangeListLoop (fuel + 1) last (first :: xs) q := by
    unfold Parser.parseParameterRangeList
    rw [hempty]
    dsimp only
    rw [hp₁]
    dsimp only
    rw [hfuel]
    exact hloop
  have hfirst : RangeItem.Is q.mem q.pos { r with high := some (r.high.getD notSet) } first := by
    have hmem : q.mem = done ++ r.written 0 ++ (more ++ (tail ++ 0 :: extra)) := by
      rw [hat.mem]
      simp
    refine ⟨⟨_, rfl, textAt_written (r := r) hmem ?_⟩, rfl⟩
    rw [hat.pos]
    simp
  have hall : List.Forall₂ (RangeItem.Is q.mem q.pos) (carried notSet (r :: rs)) (first :: xs) := .cons hfirst hxs
  have hend := rangeListLoop_end fuel last (first :: xs) hat hcq
  rw [hparse]
  split at hend
  next hcomma =>
    rw [if_pos hcomma]
    have hsame := hall.length_eq
    rw [length_carried] at hsame
    rw [hsame]
    exact hend
  next hno =>
    rw [if_neg hno]
    obtain ⟨p', hp', hmem, hpos⟩ := hend
    refine ⟨_, p', hp', ?_, ?_⟩
    · refine hall.imp fun r' x hx => ?_
      rw [hmem]
      exact ⟨hx.1.imp fun a ha => ⟨ha.1, ha.2.kept rfl (by omega)⟩, hx.2⟩
    · rw [hpos, hat.pos, h.pos]
      simp only [List.length_append, hlen, length_written r 34]
      omega

/-! ## results -/

/-- `parse_comma(true)` returned `b`: true for a comma, and otherwise it took nothing. -/
def CommaRead (p p' : Parser) (b : Bool) : Prop :=
  (b = true ↔ 44 ∈ (p.mem.drop p.pos).take (p'.pos - p.pos)) ∧ (b = false → p'.pos = p.pos)

theorem commaRead_iff (h : At p done tail extra) :
    (∃ b p', p.parseComma true = .ok (b, p') ∧ CommaRead p p' b) ↔
      p.commaPos = none ∧ (tail.drop (spaces tail)).head? = some 44 := by
  cases hc : p.commaPos with
  | some k =>
    refine ⟨?_, fun hn => by cases hn.1⟩
    rintro ⟨b, p', hp', -, hfalse⟩
    have hover : p.parseComma true = .ok (false, { p with commaPos := none }.next) := if_pos (by rw [hc]; rfl)
    rw [hover] at hp'
    cases hp'
    exact absurd (hfalse rfl) (Nat.succ_ne_self _)
  | none =>
    obtain ⟨q, hq, hpos, -⟩ := parseComma_next h hc
    rw [hq]
    constructor
    · rintro ⟨b, p', hp', -, hfalse⟩
      cases hp'
      refine ⟨rfl, ?_⟩
      by_contra hno
      have hsame := hfalse (decide_eq_false hno)
      rw [hpos, h.pos] at hsame
      omega
    · rintro ⟨-, hcomma⟩
      refine ⟨_, q, rfl, ?_, fun hf => absurd hcomma (of_decide_eq_false hf)⟩
      have hdrop : (p.mem.drop p.pos).take (q.pos - p.pos) =
          (tail ++ 0 :: extra).take ((tail.take (spaces tail)).length + 1) := by
        rw [h.mem, h.pos, List.drop_left, hpos]
        congr 1
        omega
      rw [decide_eq_true hcomma, hdrop]
      refine iff_of_true rfl ?_
      obtain ⟨text, htext⟩ : ∃ text, tail.drop (spaces tail) = 44 :: text := by
        cases hd : tail.drop (spaces tail) with
        | nil => rw [hd] at hcomma; cases hcomma
        | cons c text => rw [hd] at hcomma; exact ⟨text, by rw [Option.some.inj hcomma]⟩
      have htail : tail ++ 0 :: extra = tail.take (spaces tail) ++ 44 :: (text ++ 0 :: extra) := by
        rw [← List.cons_append, ← htext, ← List.append_assoc, List.take_append_drop]
      rw [htail, List.take_length_add_append]
      simp

/-- **Lists parse back**: a list of strings gives the strings and ends behind the parenthesis exactly when it is not
empty and all strings are in quotation marks.  A list of ranges gives its items exactly when no comma is behind it and
no item without an upper bound gets one from before; but the parser never stops behind the list.  `parse_comma(true)`
is true for a comma and otherwise takes nothing exactly when a comma is there and none was overwritten before. -/
theorem string_and_range_lists_parse_back (p : Parser) (done tail extra : List UInt8) (allow : Bool) :
    (∀ items, (∀ j ∈ items, j.Ok) → At p done (stringListText items ++ tail) extra →
      ((∃ ps p', p.parseStringList allow = .ok (ps, p') ∧ Strings p'.mem p'.pos items ps ∧
          p'.pos = p.pos + (stringListText items).length) ↔
        items ≠ [] ∧ ∀ j ∈ items, j.quoted = true)) ∧
    (∀ r rs, (∀ r' ∈ r :: rs, r'.Ok) → At p done (r.written 34 ++ (rangesText rs ++ tail)) extra →
      ((∃ xs p', p.parseParameterRangeList allow = .ok (xs, p') ∧
          List.Forall₂ (RangeItem.Is p'.mem p'.pos) (r :: rs) xs) ↔
        Fresh notSet (r :: rs) ∧ (tail.drop (spaces tail)).head? ≠ some 44) ∧
      ¬∃ xs p', p.parseParameterRangeList allow = .ok (xs, p') ∧
        List.Forall₂ (RangeItem.Is p'.mem p'.pos) (r :: rs) xs ∧
          p'.pos = p.pos + (r.written 34 ++ rangesText rs).length) ∧
    (At p done tail extra →
      ((∃ b p', p.parseComma true = .ok (b, p') ∧ CommaRead p p' b) ↔
        p.commaPos = none ∧ (tail.drop (spaces tail)).head? = some 44)) := by
  refine ⟨fun items hok h => parseStringList_iff hok h, fun r rs hok h => ?_, commaRead_iff⟩
  have hparse := parseParameterRangeList_eq allow hok h
  split at hparse
  next hcomma =>
    -- there are more items than the list has
    have hno : ¬∃ xs p', p.parseParameterRangeList allow = .ok (xs, p') ∧
        List.Forall₂ (RangeItem.Is p'.mem p'.pos) (r :: rs) xs := by
      rintro ⟨xs, p', hp', hxs⟩
      exact absurd hxs.length_eq (Nat.ne_of_lt (hparse xs p' hp'))
    refine ⟨iff_of_false hno fun hc => hc.2 hcomma, ?_⟩
    rintro ⟨xs, p', hp', hxs, -⟩
    exact hno ⟨xs, p', hp', hxs⟩
  next hend =>
    obtain ⟨xs, p', hp', hxs, hpos⟩ := hparse
    rw [hp']
    constructor
    · rw [← forall₂_carried hxs]
      constructor
      · rintro ⟨xs', q, hq, hxs'⟩
        cases hq
        exact ⟨hxs', hend⟩
      · rintro ⟨hxs', -⟩
        exact ⟨xs, p', rfl, hxs'⟩
    · rintro ⟨xs', q, hq, -, hpos'⟩
      cases hq
      omega

/-- `("A", "B")`, `("a",(1)),("b",(2-5))` and a comma behind a space. -/
theorem short_lists_parse_back :
    (∃ ps p', Parser.parseStringList false
        { mem := stringListText [⟨false, true, [65]⟩, ⟨true, true, [66]⟩] ++ [0], eob := 20 } = .ok (ps, p') ∧
      Strings p'.mem p'.pos [⟨false, true, [65]⟩, ⟨true, true, [66]⟩] ps ∧ p'.pos = 10) ∧
    (∃ xs p', Parser.parseParameterRangeList false
        { mem := RangeItem.written ⟨[97], 1, none⟩ 34 ++ rangesText [⟨[98], 2, some 5⟩] ++ [0], eob := 30 } =
      .ok (xs, p') ∧ List.Forall₂ (RangeItem.Is p'.mem p'.pos) [⟨[97], 1, none⟩, ⟨[98], 2, some 5⟩] xs) ∧
    ∃ b p', Parser.parseComma true { mem := [32, 44, 0], eob := 3 } = .ok (b, p') ∧
      CommaRead { mem := [32, 44, 0], eob := 3 } p' b := by
  refine ⟨?_, ?_, ?_⟩
  · refine ((string_and_range_lists_parse_back _ [] [] [] false).1 [⟨false, true, [65]⟩, ⟨true, true, [66]⟩] ?_
      ⟨rfl, rfl, by decide⟩).mpr ⟨by simp, by simp⟩
    simp [StringItem.Ok, Item.Ok]
  · refine ((string_and_range_lists_parse_back _ [] [] [] false).2.1 ⟨[97], 1, none⟩ [⟨[98], 2, some 5⟩] ?_
      ⟨rfl, rfl, ?_⟩).1.mpr ⟨by simp [Fresh], by decide⟩
    · rintro r hr
      rcases List.mem_cons.mp hr with rfl | hr
      · exact ⟨by simp [Item.Ok], by simp [Item.Ok], by simp⟩
      · rw [List.mem_singleton.mp hr]
        exact ⟨by simp [Item.Ok], by simp [Item.Ok], by simp [Item.Ok]⟩
    · decide
  · exact ((string_and_range_lists_parse_back { mem := [32, 44, 0], eob := 3 } [] [32, 44] [] false).2.2
      ⟨rfl, rfl, by decide⟩).mpr ⟨rfl, by decide⟩

/-- `(A)` is no list; in `("a",(1-5)),("b",(2))` the second item gets the upper bound of the first, and the parser
goes over the terminator; before `x`, `parse_comma(true)` takes the `x`. -/
theorem unquoted_list_fails :
    Parser.parseStringList false { mem := [40, 65, 41, 0], eob := 4 } = .error .unexpectedEof ∧
      ((Parser.parseParameterRangeList false
        { mem := [40, 34, 97, 34, 44, 40, 49, 45, 53, 41, 41, 44, 40, 34, 98, 34, 44, 40, 50, 41, 41, 0], eob := 22 }).map
          fun (xs, p) => (xs, p.pos)) = .ok ([⟨some 2, ⟨5, 1⟩⟩, ⟨some 14, ⟨5, 2⟩⟩], 22) ∧
      ((Parser.parseComma true { mem := [120, 0], eob := 2 }).map fun (b, p) => (b, p.pos)) = .ok (false, 1) :=
  ⟨rfl, rfl, rfl⟩

end Isix.Gsm
