import Isix.Foundation.TinyPrintf
import Mathlib.Data.List.Infix
import Mathlib.Tactic.IntervalCases

/-!
# Isix.Properties.TinyPrintf

What `tiny_vaprintf` prints does not depend on where it prints to: a format is a
list of pieces, the pieces and the arguments give the text (`textOf`), and the
loop prints that text character by character (`loop_eq`).  A buffer then holds
the first characters of the text (`Holding`).

A format that ends inside a conversion leaves the buffer without a terminator.
-/

namespace Isix.Foundation.TinyPrintf

open Buffer (Buf CString IsString)

variable {len fuel base letbase u : Nat} {c : UInt8} {o : Out} {l t : List UInt8} {width : Int} {pad : Pad}

/-! ## the text of a conversion -/

theorem stringLoop_append (l l' : List UInt8) (o : Out) :
    stringLoop len (l ++ l') o = stringLoop len l' (stringLoop len l o) := by
  induction l generalizing o with
  | nil => rfl
  | cons c l ih => exact ih (printchar len c o)

theorem padLoop_eq (n : Nat) (o : Out) : padLoop len c n o = stringLoop len (List.replicate n c) o := by
  induction n generalizing o with
  | zero => rfl
  | succ n ih => exact ih (printchar len c o)

/-- `string` in a field of `width` characters. -/
def padded (string : List UInt8) (width : Int) (pad : Pad) : List UInt8 :=
  let fill := List.replicate (width - string.length).toNat (if pad.zero then 48 else 32)
  if pad.right then string ++ fill else fill ++ string

theorem prints_eq : prints len l width pad o = stringLoop len (padded l width pad) o := by
  obtain ⟨n, hn⟩ : ∃ n, (width - l.length).toNat = n := ⟨_, rfl⟩
  have hwidth : (if 0 < width then (if width ≤ l.length then 0 else width - l.length) else width).toNat = n := by
    split
    · split <;> omega
    · omega
  -- the fill character matters only where there is fill
  have hfill : List.replicate n (if 0 < width ∧ pad.zero = true then (48 : UInt8) else 32) =
      List.replicate n (if pad.zero then 48 else 32) := by
    by_cases hpos : 0 < width
    · simp [hpos]
    · rw [show n = 0 by omega]
      rfl
  unfold prints padded
  rw [hn]
  cases hright : pad.right with
  | true =>
    simp only [not_true_eq_false, if_false, if_true]
    rw [padLoop_eq, hwidth, hfill, ← stringLoop_append]
  | false =>
    simp only [Bool.false_eq_true, not_false_eq_true, if_true, if_false]
    rw [padLoop_eq, padLoop_eq, hwidth, hfill, ← stringLoop_append,
      show ∀ w : Int, (min w 0).toNat = 0 by omega, List.replicate_zero, List.append_nil, ← stringLoop_append]

/-- What `printi` prints. -/
def integerText (i : BitVec 64) (base : Nat) (sign : Bool) (width : Int) (pad : Pad) (letbase : Nat) : List UInt8 :=
  if i = 0 then padded [48] width pad
  else
    let neg := sign && base == 10 && i.msb
    let u := if neg then (-i).toNat else i.toNat
    let s := digitsLoop base letbase (u + 1) u []
    if neg then
      if width ≠ 0 ∧ pad.zero then 45 :: padded s (int (width - 1)) pad else padded (45 :: s) width pad
    else padded s width pad

theorem printi_eq {i : BitVec 64} {sign : Bool} :
    printi len i base sign width pad letbase o = stringLoop len (integerText i base sign width pad letbase) o := by
  unfold printi integerText
  dsimp only
  split
  · exact prints_eq
  · split
    · split
      · exact prints_eq
      · exact prints_eq
    · exact prints_eq

/-- What a conversion prints, and the arguments it leaves. -/
def convText (conv : Conv) (spec : UInt8) (args : List Arg) : Option (List UInt8 × List Arg) :=
  if spec = 115 then
    match args with
    | .str s :: args => some (padded (s.getD nullText).val conv.width conv.pad, args)
    | _ => none
  else if spec = 100 ∨ spec = 105 then
    (signedArg conv.modf args).map fun (v, args) => (integerText v 10 true conv.width conv.pad 97, args)
  else if spec = 117 ∨ spec = 120 ∨ spec = 88 then
    (unsignedArg conv.modf args).map fun (v, args) =>
      (integerText v (if spec = 117 then 10 else 16) false conv.width conv.pad (if spec = 120 then 97 else 65), args)
  else if spec = 112 then
    match args with
    | .ptr v :: args => some (integerText (v.setWidth 64) 16 false 8 { zero := true } 65, args)
    | _ => none
  else if spec = 99 then
    match args with
    | .word v :: args =>
      some (padded (if v.setWidth 8 = 0 then [] else [UInt8.ofBitVec (v.setWidth 8)]) conv.width conv.pad, args)
    | _ => none
  else some ([37, spec], args)

theorem convert_eq (conv : Conv) (spec : UInt8) (args : List Arg) (o : Out) :
    convert len conv spec args o = (convText conv spec args).map fun (t, args) => (stringLoop len t o, args) := by
  unfold convert convText
  split
  · cases args with
    | nil => rfl
    | cons a args =>
      cases a with
      | str s => exact congrArg (fun o => some (o, args)) prints_eq
      | _ => rfl
  split
  · rw [Option.map_map]
    congr 1
    funext ⟨v, args⟩
    exact congrArg (·, args) printi_eq
  split
  · rw [Option.map_map]
    congr 1
    funext ⟨v, args⟩
    exact congrArg (·, args) printi_eq
  split
  · cases args with
    | nil => rfl
    | cons a args =>
      cases a with
      | ptr v => exact congrArg (fun o => some (o, args)) printi_eq
      | _ => rfl
  split
  · cases args with
    | nil => rfl
    | cons a args =>
      cases a with
      | word v => exact congrArg (fun o => some (o, args)) prints_eq
      | _ => rfl
  · rfl

/-! ## the text of a format -/

/-- A character to print, or a conversion. -/
inductive Piece
  | char (c : UInt8)
  | conversion (conv : Conv)
deriving DecidableEq, Repr

def piecesFrom : Nat → List UInt8 → List Piece
  | 0, _ => []
  | _ + 1, [] => []
  | fuel + 1, c :: format =>
    if c ≠ 37 then .char c :: piecesFrom fuel format
    else if format.head? = some 37 then .char 37 :: piecesFrom fuel format.tail
    else .conversion (readConversion format).1 :: piecesFrom fuel (readConversion format).2

/-- The pieces of a format. -/
def pieces (format : CString) : List Piece := piecesFrom (format.val.length + 1) format.val

/-- The format does not end inside this piece. -/
def Piece.complete : Piece → Bool
  | .char _ => true
  | .conversion conv => conv.spec.isSome

def textOf : List Piece → List Arg → Option (List UInt8)
  | [], _ => some []
  | .char c :: ps, args => (textOf ps args).map (c :: ·)
  | .conversion conv :: ps, args =>
    match conv.spec with
    | none => some []
    | some spec => (convText conv spec args).bind fun (t, args) => (textOf ps args).map (t ++ ·)

theorem readMinus_length (l : List UInt8) : (readMinus l).2.length ≤ l.length := by
  unfold readMinus
  split <;> simp

theorem readZeros_length (l : List UInt8) (zero : Bool) : (readZeros l zero).2.length ≤ l.length := by
  induction l generalizing zero with
  | nil => exact Nat.le_refl _
  | cons c l ih =>
    unfold readZeros
    split
    · exact Nat.le_succ_of_le (ih true)
    · exact Nat.le_refl _

theorem readWidth_length (l : List UInt8) (width : Int) : (readWidth l width).2.length ≤ l.length := by
  induction l generalizing width with
  | nil => exact Nat.le_refl _
  | cons c l ih =>
    unfold readWidth
    split
    · exact Nat.le_succ_of_le (ih _)
    · exact Nat.le_refl _

theorem readModf_length (l : List UInt8) : (readModf l).2.length ≤ l.length := by
  unfold readModf
  split <;> simp only [List.length_cons] <;> omega

theorem readConversion_length (l : List UInt8) : (readConversion l).2.length ≤ l.length := by
  unfold readConversion
  rw [List.length_tail]
  have hmodf := readModf_length (readWidth (readZeros (readMinus l).2 false).2 0).2
  have hwidth := readWidth_length (readZeros (readMinus l).2 false).2 0
  have hzeros := readZeros_length (readMinus l).2 false
  have hminus := readMinus_length l
  omega

/-- The loop prints the text of the pieces, and ends it if the format is complete. -/
theorem loop_eq {format : List UInt8} (hf : format.length < fuel) (args : List Arg) (o : Out) :
    loop len fuel format args o = (textOf (piecesFrom fuel format) args).map fun t =>
      if (piecesFrom fuel format).all Piece.complete then terminate len (stringLoop len t o) else stringLoop len t o := by
  induction fuel generalizing format args o with
  | zero => cases hf
  | succ fuel ih =>
    cases format with
    | nil => rfl
    | cons c format =>
      rw [List.length_cons] at hf
      unfold loop piecesFrom
      split
      · rw [ih (by omega), textOf, Option.map_map]
        simp only [List.all_cons, Piece.complete, Bool.true_and]
        rfl
      split
      · have hlen : format.tail.length < fuel := by rw [List.length_tail]; omega
        rw [ih hlen, textOf, Option.map_map]
        simp only [List.all_cons, Piece.complete, Bool.true_and]
        rfl
      · have hle := readConversion_length format
        dsimp only
        rw [textOf]
        cases hspec : (readConversion format).1.spec with
        | none =>
          rw [Option.map_some, List.all_cons, Piece.complete, hspec]
          rfl
        | some spec =>
          dsimp only
          rw [convert_eq, List.all_cons, Piece.complete, hspec]
          cases convText (readConversion format).1 spec args with
          | none => rfl
          | some r =>
            obtain ⟨t, args⟩ := r
            simp only [Option.map_some, Option.bind_some, Option.isSome_some, Bool.true_and]
            rw [ih (by omega), Option.map_map]
            congr 1
            funext t'
            simp only [Function.comp, stringLoop_append]

/-! ## arguments that match -/

inductive Kind
  | word
  | dword
  | str
  | ptr
deriving DecidableEq

def Arg.kind : Arg → Kind
  | .word _ => .word
  | .dword _ => .dword
  | .str _ => .str
  | .ptr _ => .ptr

/-- The kind of argument a conversion takes. -/
def Conv.kind (conv : Conv) : Option Kind :=
  conv.spec.bind fun spec =>
    if spec = 115 then some .str
    else if spec ∈ [100, 105, 117, 120, 88] then some (if conv.modf = .ll then .dword else .word)
    else if spec = 112 then some .ptr
    else if spec = 99 then some .word
    else none

def Piece.kind : Piece → Option Kind
  | .char _ => none
  | .conversion conv => conv.kind

/-- The arguments are those the pieces take, and perhaps more. -/
def Matches (ps : List Piece) (args : List Arg) : Prop := ps.filterMap Piece.kind <+: args.map Arg.kind

instance (ps : List Piece) (args : List Arg) : Decidable (Matches ps args) :=
  inferInstanceAs (Decidable (ps.filterMap Piece.kind <+: args.map Arg.kind))

/-- What is known of a conversion that found its argument. -/
structure Printable (kind : Option Kind) (args : List Arg) (r : List UInt8 × List Arg) : Prop where
  nonzero : ∀ c ∈ r.1, c ≠ 0
  rest : args.map Arg.kind = kind.toList ++ r.2.map Arg.kind

theorem padded_nonzero (hl : ∀ c ∈ l, c ≠ 0) : ∀ c ∈ padded l width pad, c ≠ 0 := by
  intro c hc
  have hfill : c ∈ List.replicate (width - l.length).toNat (if pad.zero then (48 : UInt8) else 32) → c ≠ 0 := by
    intro h
    rw [List.eq_of_mem_replicate h]
    split <;> decide
  unfold padded at hc
  dsimp only at hc
  split at hc
  · exact (List.mem_append.mp hc).elim (hl c) hfill
  · exact (List.mem_append.mp hc).elim hfill (hl c)

/-- The character of a digit. -/
def digitChar (letbase t : Nat) : UInt8 := UInt8.ofNat ((if 10 ≤ t then t + letbase - 48 - 10 else t) + 48)

theorem digitChar_ne_zero (hl : letbase = 97 ∨ letbase = 65) {t : Nat} (ht : t < 16) : digitChar letbase t ≠ 0 := by
  rcases hl with rfl | rfl <;> interval_cases t <;> decide

theorem digitsLoop_nonzero (hb : base = 10 ∨ base = 16) (hl : letbase = 97 ∨ letbase = 65) (ht : ∀ c ∈ t, c ≠ 0) :
    ∀ c ∈ digitsLoop base letbase fuel u t, c ≠ 0 := by
  induction fuel generalizing u t with
  | zero => exact ht
  | succ fuel ih =>
    unfold digitsLoop
    split
    · exact ht
    · apply ih
      intro c hc
      rcases List.mem_cons.mp hc with rfl | hc
      · have hlt : u % base < 16 := by rcases hb with rfl | rfl <;> omega
        exact digitChar_ne_zero hl hlt
      · exact ht c hc

theorem integerText_nonzero (hb : base = 10 ∨ base = 16) (hl : letbase = 97 ∨ letbase = 65) (i : BitVec 64) (sign : Bool) :
    ∀ c ∈ integerText i base sign width pad letbase, c ≠ 0 := by
  have hdigits : ∀ u, ∀ c ∈ digitsLoop base letbase (u + 1) u [], c ≠ 0 := fun u =>
    digitsLoop_nonzero hb hl (fun c hc => by cases hc)
  unfold integerText
  dsimp only
  split
  · exact padded_nonzero (Buffer.nonzero_of_all rfl)
  split
  · split
    · intro c hc
      rcases List.mem_cons.mp hc with rfl | hc
      · decide
      · exact padded_nonzero (hdigits _) c hc
    · apply padded_nonzero
      intro c hc
      rcases List.mem_cons.mp hc with rfl | hc
      · decide
      · exact hdigits _ c hc
  · exact padded_nonzero (hdigits _)

variable {args : List Arg}

theorem exists_arg {k : Kind} (h : k ∈ (args.map Arg.kind).head?) : ∃ a rest, args = a :: rest ∧ a.kind = k := by
  cases args with
  | nil => cases h
  | cons a rest => exact ⟨a, rest, rfl, Option.some.inj h⟩

theorem arg_some {modf : Modf} {getArg : Modf → List Arg → Option (BitVec 64 × List Arg)}
    (hget : getArg = signedArg ∨ getArg = unsignedArg)
    (h : (if modf = .ll then Kind.dword else .word) ∈ (args.map Arg.kind).head?) :
    ∃ v rest, getArg modf args = some (v, rest) ∧
      args.map Arg.kind = (if modf = .ll then Kind.dword else .word) :: rest.map Arg.kind := by
  obtain ⟨a, args, rfl, ha⟩ := exists_arg h
  rcases hget with rfl | rfl <;> cases modf <;> cases a <;> first | exact ⟨_, _, rfl, rfl⟩ | cases ha

/-- A conversion whose argument comes next prints text without zeros. -/
theorem convText_printable {conv : Conv} {spec : UInt8} (hspec : conv.spec = some spec) (hz : spec ≠ 0)
    (h : conv.kind.toList <+: args.map Arg.kind) : ∃ r, convText conv spec args = some r ∧ Printable conv.kind args r := by
  have hhead : ∀ k, conv.kind = some k → k ∈ (args.map Arg.kind).head? := by
    intro k hk
    obtain ⟨rest, hrest⟩ := h
    rw [← hrest, hk]
    rfl
  unfold convText
  unfold Conv.kind at hhead ⊢
  rw [hspec, Option.bind_some] at hhead ⊢
  split
  · -- a string
    rename_i hs
    obtain ⟨a, args, rfl, ha⟩ := exists_arg (hhead .str (by rw [if_pos hs]))
    cases a with
    | str s => exact ⟨_, rfl, padded_nonzero (s.getD nullText).property, rfl⟩
    | _ => cases ha
  rename_i hs
  rw [if_neg hs] at hhead
  split
  · rename_i hd
    have hmem : spec ∈ ([100, 105, 117, 120, 88] : List UInt8) := by rcases hd with rfl | rfl <;> decide
    rw [if_pos hmem] at hhead ⊢
    obtain ⟨v, rest, hv, hrest⟩ := arg_some (.inl rfl) (hhead _ rfl)
    rw [hv]
    exact ⟨_, rfl, integerText_nonzero (.inl rfl) (.inl rfl) v true, hrest⟩
  rename_i hd
  split
  · rename_i hu
    have hmem : spec ∈ ([100, 105, 117, 120, 88] : List UInt8) := by rcases hu with rfl | rfl | rfl <;> decide
    rw [if_pos hmem] at hhead ⊢
    obtain ⟨v, rest, hv, hrest⟩ := arg_some (.inr rfl) (hhead _ rfl)
    rw [hv]
    refine ⟨_, rfl, integerText_nonzero ?_ ?_ v false, hrest⟩
    · split
      · exact .inl rfl
      · exact .inr rfl
    · split
      · exact .inl rfl
      · exact .inr rfl
  rename_i hu
  have hmem : spec ∉ ([100, 105, 117, 120, 88] : List UInt8) := by
    intro hm
    simp only [List.mem_cons, List.not_mem_nil, or_false] at hm
    tauto
  rw [if_neg hmem] at hhead ⊢
  split
  · rename_i hp
    obtain ⟨a, args, rfl, ha⟩ := exists_arg (hhead .ptr (by rw [if_pos hp]))
    cases a with
    | ptr v => exact ⟨_, rfl, integerText_nonzero (.inr rfl) (.inr rfl) _ _, rfl⟩
    | _ => cases ha
  rename_i hp
  rw [if_neg hp] at hhead
  split
  · rename_i hc
    obtain ⟨a, args, rfl, ha⟩ := exists_arg (hhead .word (by rw [if_pos hc]))
    cases a with
    | word v =>
      refine ⟨_, rfl, padded_nonzero ?_, rfl⟩
      intro c hc
      split at hc
      · cases hc
      · rename_i hv
        rw [List.mem_singleton.mp hc]
        intro he
        exact hv (congrArg UInt8.toBitVec he)
    | _ => cases ha
  · refine ⟨_, rfl, fun c hc => ?_, rfl⟩
    rcases List.mem_cons.mp hc with rfl | hc
    · decide
    · rwa [List.mem_singleton.mp hc]

/-- The characters of a piece are no zeros. -/
def Piece.nonzero : Piece → Prop
  | .char c => c ≠ 0
  | .conversion conv => ∀ spec, conv.spec = some spec → spec ≠ 0

theorem textOf_some {ps : List Piece} (hps : ∀ p ∈ ps, p.nonzero) (h : Matches ps args) :
    ∃ t, textOf ps args = some t ∧ ∀ c ∈ t, c ≠ 0 := by
  induction ps generalizing args with
  | nil => exact ⟨[], rfl, fun c hc => by cases hc⟩
  | cons p ps ih =>
    have hrest : ∀ q ∈ ps, q.nonzero := fun q hq => hps q (List.mem_cons_of_mem p hq)
    have hp := hps p List.mem_cons_self
    cases p with
    | char c =>
      obtain ⟨t, ht, hz⟩ := ih hrest h
      exact ⟨c :: t, by rw [textOf, ht]; rfl, List.forall_mem_cons.mpr ⟨hp, hz⟩⟩
    | conversion conv =>
      rw [textOf]
      cases hspec : conv.spec with
      | none => exact ⟨[], rfl, fun c hc => by cases hc⟩
      | some spec =>
        have hsplit : conv.kind.toList ++ ps.filterMap Piece.kind <+: args.map Arg.kind := by
          unfold Matches at h
          rw [List.filterMap_cons] at h
          simp only [Piece.kind] at h
          cases hk : conv.kind with
          | none => rwa [hk] at h
          | some k => rwa [hk] at h
        obtain ⟨r, hr, hprint⟩ := convText_printable hspec (hp spec hspec)
          ((List.prefix_append _ _).trans hsplit)
        have hargs : Matches ps r.2 := by
          rw [hprint.rest, List.prefix_append_right_inj] at hsplit
          exact hsplit
        obtain ⟨t, ht, hz⟩ := ih hrest hargs
        refine ⟨r.1 ++ t, by simp [hr, ht], fun x hx => ?_⟩
        exact (List.mem_append.mp hx).elim (hprint.nonzero x) (hz x)

theorem readZeros_subset (l : List UInt8) (zero : Bool) : (readZeros l zero).2 ⊆ l := by
  induction l generalizing zero with
  | nil => exact fun _ h => h
  | cons c l ih =>
    unfold readZeros
    split
    · exact fun x hx => List.mem_cons_of_mem c (ih true hx)
    · exact fun _ h => h

theorem readWidth_subset (l : List UInt8) (width : Int) : (readWidth l width).2 ⊆ l := by
  induction l generalizing width with
  | nil => exact fun _ h => h
  | cons c l ih =>
    unfold readWidth
    split
    · exact fun x hx => List.mem_cons_of_mem c (ih _ hx)
    · exact fun _ h => h

theorem readModf_subset (l : List UInt8) : (readModf l).2 ⊆ l := by
  unfold readModf
  split <;> simp

theorem readMinus_subset (l : List UInt8) : (readMinus l).2 ⊆ l := by
  unfold readMinus
  split <;> simp

theorem readConversion_subset {l : List UInt8} :
    (∀ spec, (readConversion l).1.spec = some spec → spec ∈ l) ∧ (readConversion l).2 ⊆ l := by
  have hsub : (readModf (readWidth (readZeros (readMinus l).2 false).2 0).2).2 ⊆ l := fun x hx =>
    readMinus_subset l (readZeros_subset _ _ (readWidth_subset _ _ (readModf_subset _ hx)))
  exact ⟨fun spec h => hsub (List.mem_of_mem_head? h), fun x hx => hsub (List.mem_of_mem_tail hx)⟩

theorem piecesFrom_nonzero {format : List UInt8} (hz : ∀ c ∈ format, c ≠ 0) : ∀ p ∈ piecesFrom fuel format, p.nonzero := by
  induction fuel generalizing format with
  | zero => exact fun p hp => by cases hp
  | succ fuel ih =>
    cases format with
    | nil => exact fun p hp => by cases hp
    | cons c format =>
      have hrest : ∀ x ∈ format, x ≠ 0 := fun x hx => hz x (List.mem_cons_of_mem c hx)
      unfold piecesFrom
      intro p hp
      split at hp
      · rcases List.mem_cons.mp hp with rfl | hp
        · exact hz c List.mem_cons_self
        · exact ih hrest p hp
      split at hp
      · rcases List.mem_cons.mp hp with rfl | hp
        · exact (by decide : (37 : UInt8) ≠ 0)
        · exact ih (fun x hx => hrest x (List.mem_of_mem_tail hx)) p hp
      · obtain ⟨hspec, hsub⟩ := readConversion_subset
        rcases List.mem_cons.mp hp with rfl | hp
        · exact fun spec h => hrest spec (hspec spec h)
        · exact ih (fun x hx => hrest x (hsub hx)) p hp

/-! ## the two outputs -/

/-- The buffer at `out` after the text `t`: its first `len - 1` characters are there. -/
structure Holding (out len : Nat) (b : Buf) (t : List UInt8) (o : Out) : Prop where
  str : o.str = some (out + min t.length (len - 1))
  buf : o.buf = b.write out (t.take (len - 1))
  pc : o.pc = t.length

theorem Holding.printchar {out : Nat} {b : Buf} (h : Holding out len b t o) (hlen : 1 ≤ len) (ht : t.length + 1 < 2 ^ 32) :
    Holding out len b (t ++ [c]) (printchar len c o) := by
  have hpc : (o.pc + 1) % 2 ^ 32 = t.length + 1 := by
    rw [h.pc]
    exact Nat.mod_eq_of_lt ht
  unfold TinyPrintf.printchar
  rw [h.str, hpc]
  dsimp only
  split
  · rename_i hroom
    have hmin : min t.length (len - 1) = t.length := by omega
    refine ⟨?_, ?_, ?_⟩
    · rw [List.length_append, List.length_singleton]
      exact congrArg some (by omega)
    · rw [h.buf, hmin, List.take_of_length_le (by omega), List.take_of_length_le (by simp; omega), Buffer.write_append]
      rfl
    · simp
  · rename_i hroom
    refine ⟨?_, ?_, ?_⟩
    · rw [List.length_append, List.length_singleton]
      exact h.str.trans (congrArg some (by omega))
    · rw [h.buf, List.take_append_of_le_length (by omega)]
    · simp

theorem Holding.stringLoop {out : Nat} {b : Buf} (h : Holding out len b t o) (hlen : 1 ≤ len)
    (ht : (t ++ l).length < 2 ^ 32) : Holding out len b (t ++ l) (stringLoop len l o) := by
  induction l generalizing t o with
  | nil =>
    rw [List.append_nil]
    exact h
  | cons c l ih =>
    rw [List.length_append, List.length_cons] at ht
    have hnext := h.printchar (c := c) hlen (by omega)
    have := ih hnext (by simp; omega)
    rwa [List.append_assoc, List.singleton_append] at this

theorem stringLoop_sent (l : List UInt8) (ho : o.str = none) (hpc : o.pc < 2 ^ 32) :
    (stringLoop len l o).str = none ∧ (stringLoop len l o).sent = o.sent ++ l ∧
      (stringLoop len l o).pc = (o.pc + l.length) % 2 ^ 32 := by
  induction l generalizing o with
  | nil => exact ⟨ho, by simp [stringLoop], (Nat.mod_eq_of_lt hpc).symm⟩
  | cons c l ih =>
    have hchar : printchar len c o = { o with sent := o.sent ++ [c], pc := (o.pc + 1) % 2 ^ 32 } := by
      unfold printchar
      rw [ho]
    have := ih (o := printchar len c o) (by rw [hchar]; exact ho) (by rw [hchar]; exact Nat.mod_lt _ (by decide))
    rw [hchar] at this
    obtain ⟨hstr, hsent, hpc'⟩ := this
    rw [TinyPrintf.stringLoop, hchar]
    refine ⟨hstr, ?_, ?_⟩
    · rw [hsent, List.append_assoc, List.singleton_append]
    · rw [hpc', List.length_cons]
      dsimp only
      omega

theorem int_lt (x : Int) : int x < 2 ^ 31 := by
  have hlt : x.bmod (2 ^ 32) < _ := Int.bmod_lt (by decide)
  unfold int
  omega

theorem int_eq {n : Nat} (h : n < 2 ^ 31) : int n = n := by
  exact Int.bmod_eq_of_le (by omega) (by omega)

theorem tinyPrintf_eq {format : CString} (ht : textOf (pieces format) args = some t) :
    tinyPrintf format args = some (int (t.length % 2 ^ 32 : Nat), t) := by
  unfold tinyPrintf tinyVaprintf
  unfold pieces at ht
  generalize ho : (⟨none, ⟨fun _ => 0, []⟩, [], 0⟩ : Out) = o
  obtain ⟨hstr, hsent, hpc⟩ := stringLoop_sent t (by rw [← ho] : o.str = none) (by rw [← ho]; decide)
  have hterm : terminate 0 (stringLoop 0 t o) = stringLoop 0 t o := by
    unfold terminate
    rw [hstr]
  rw [loop_eq (Nat.lt_succ_self _), ht, Option.map_some, Option.map_some, hterm, ite_self, hsent, hpc, ← ho]
  simp

/-- What a format leaves in the buffer: a complete one ends with a terminator. -/
theorem tinySnprintf_eq {format : CString} {out maxLen : Nat} {b : Buf}
    (ht : textOf (pieces format) args = some t) (hout : out ≠ 0) (hlen : 1 ≤ maxLen) (hfits : t.length < 2 ^ 31) :
    tinySnprintf out maxLen format args b = some ((t.length : Int),
      if (pieces format).all Piece.complete then (b.write out (t.take (maxLen - 1))).put (out + min t.length (maxLen - 1)) 0
      else b.write out (t.take (maxLen - 1))) := by
  have hinit : Holding out maxLen b [] ⟨some out, b, [], 0⟩ := ⟨by simp, by simp [Buf.write], rfl⟩
  have hhold := hinit.stringLoop (l := t) hlen (by rw [List.nil_append]; omega)
  rw [List.nil_append] at hhold
  unfold tinySnprintf tinyVaprintf
  unfold pieces at ht ⊢
  rw [loop_eq (Nat.lt_succ_self _), ht, Option.map_some, Option.map_some]
  split
  · unfold terminate
    rw [hhold.str]
    dsimp only
    rw [if_pos ⟨by omega, hlen⟩, hhold.buf, hhold.pc, int_eq hfits]
  · rw [hhold.buf, hhold.pc, int_eq hfits]

/-- The result is an `int`. -/
theorem tinySnprintf_lt {format : CString} {out maxLen : Nat} {b : Buf} {r : Int × Buf}
    (h : tinySnprintf out maxLen format args b = some r) : r.1 < 2 ^ 31 := by
  unfold tinySnprintf at h
  obtain ⟨o, -, rfl⟩ := Option.map_eq_some_iff.mp h
  dsimp only
  exact int_lt o.pc

/-- **Bounded print**: for every format and every matching argument list `tiny_printf` sends some text to the handler.
Whatever a buffer holds, `tiny_snprintf` returns the length of the text, writes inside the buffer only and leaves there,
terminated, the first `max_len - 1` characters of the text, if and only if the format does not end inside a conversion
and the length of the text is an `int`. -/
theorem snprintf_truncates (format : CString) (args : List Arg) (out maxLen : Nat) (hout : out ≠ 0)
    (hlen : 1 ≤ maxLen) (hargs : Matches (pieces format) args) :
    ∃ text r, tinyPrintf format args = some (r, text) ∧
      ((∀ mem : Nat → UInt8, ∃ b, tinySnprintf out maxLen format args ⟨mem, []⟩ = some ((text.length : Int), b) ∧
        r = text.length ∧ (∀ q ∈ b.touched, out ≤ q ∧ q < out + maxLen) ∧
        IsString b.mem out (text.take (min text.length (maxLen - 1)))) ↔
      (∀ p ∈ pieces format, p.complete = true) ∧ text.length < 2 ^ 31) := by
  obtain ⟨t, ht, hz⟩ := textOf_some (piecesFrom_nonzero format.property) hargs
  have htake : t.take (min t.length (maxLen - 1)) = t.take (maxLen - 1) := by
    rcases Nat.le_total t.length (maxLen - 1) with h | h
    · rw [Nat.min_eq_left h, List.take_length, List.take_of_length_le h]
    · rw [Nat.min_eq_right h]
  have htakeLen : (t.take (maxLen - 1)).length = min t.length (maxLen - 1) := by
    rw [List.length_take, Nat.min_comm]
  refine ⟨t, _, tinyPrintf_eq ht, fun h => ?_, fun ⟨hend, hfits⟩ mem => ?_⟩
  · -- a buffer without zeros shows whether the terminator is stored
    obtain ⟨b, hb, -, -, hstr⟩ := h fun _ => 170
    have hfits : t.length < 2 ^ 31 := by
      have := tinySnprintf_lt hb
      dsimp only at this
      omega
    refine ⟨?_, hfits⟩
    rw [← List.all_eq_true]
    by_contra hcut
    rw [tinySnprintf_eq ht hout hlen hfits, if_neg hcut] at hb
    obtain rfl := (Prod.mk.inj (Option.some.inj hb)).2
    have hend := hstr.zero
    rw [htake, Buffer.write_outside (.inr (Nat.le_refl _))] at hend
    cases hend
  · refine ⟨_, tinySnprintf_eq ht hout hlen hfits, by rw [Nat.mod_eq_of_lt (by omega)]; exact int_eq hfits, ?_⟩
    rw [if_pos (List.all_eq_true.mpr hend)]
    refine ⟨fun q hq => ?_, ?_, ?_, ?_⟩
    · rcases Buffer.mem_touched_put.mp hq with rfl | hq
      · omega
      · rcases Buffer.mem_touched_write.mp hq with h | h
        · rw [htakeLen] at h
          omega
        · cases h
    · rw [htake, Buffer.slice_put_outside (by rw [htakeLen]; omega), Buffer.slice_write]
    · rw [htake, htakeLen, Buffer.put_self]
    · intro c hc
      exact hz c (List.mem_of_mem_take hc)

/-- `"a%5d"` -/
def number : CString := ⟨[97, 37, 53, 100], Buffer.nonzero_of_all rfl⟩

theorem snprintf_truncates_number :
    ∃ text r, tinyPrintf number [.word 42] = some (r, text) ∧
      ((∀ mem : Nat → UInt8, ∃ b, tinySnprintf 100 4 number [.word 42] ⟨mem, []⟩ = some ((text.length : Int), b) ∧
        r = text.length ∧ (∀ q ∈ b.touched, 100 ≤ q ∧ q < 100 + 4) ∧
        IsString b.mem 100 (text.take (min text.length (4 - 1)))) ↔
      (∀ p ∈ pieces number, p.complete = true) ∧ text.length < 2 ^ 31) :=
  snprintf_truncates number [.word 42] 100 4 (by decide) (by decide) (by decide +kernel)

/-- `"ab%"` -/
def cutOff : CString := ⟨[97, 98, 37], Buffer.nonzero_of_all rfl⟩

/-- A format that ends behind a `%`: two characters are there and no terminator, in a buffer with room for eight. -/
theorem snprintf_cutOff :
    ((tinySnprintf 100 8 cutOff [] ⟨fun _ => 170, []⟩).map fun r => (r.1, r.2.touched,
        (List.range 8).map fun i => r.2.mem (100 + i))) =
      some (2, [101, 100], [97, 98, 170, 170, 170, 170, 170, 170]) := by
  decide +kernel

end Isix.Foundation.TinyPrintf
