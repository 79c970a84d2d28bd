import Mathlib.Algebra.Order.BigOperators.Group.Finset

/-!
# Isix.Gdi.Lz

The compressed pictures of libgfx.  The conversion tool packs the bytes of an image
in lines of 256 (`host-tools/convflashbmp.cpp`, `host-tools/lz.c`), and
`gdi::draw_image` unpacks them one after the other.
-/

namespace Isix.Gdi.Lz

/-! ## numbers -/

/-- The loop of `_LZ_WriteVarSize` for `num_bytes`; `y & 0xfe000000` are the upper bits of 32. -/
def numBytes : Nat → Nat → Nat
  | 0, _ => 1
  | k + 1, y => if 2 ^ 25 ≤ y then k + 2 else numBytes k (y * 2 ^ 7 % 2 ^ 32)

/-- The bytes it writes, seven bits in each, with the eighth set for all but the last. -/
def groups (x : Nat) : Nat → List UInt8
  | 0 => []
  | i + 1 => UInt8.ofNat (x / 128 ^ i % 128 + if 0 < i then 128 else 0) :: groups x i

/-- `_LZ_WriteVarSize` -/
def writeVarSize (x : Nat) : List UInt8 := groups x (numBytes 4 (x / 2 ^ 3))

/-- `_lz_read_var_size`, behind `n` bytes that gave `y`: the number, and how many bytes it has -/
def readVarSize (y n : Nat) : List UInt8 → Option (Nat × Nat)
  | [] => none
  | b :: buf =>
    let y := y * 2 ^ 7 % 2 ^ 32 + b.toNat % 128
    if 128 ≤ b.toNat then readVarSize y (n + 1) buf else some (y, n + 1)

theorem groups_length (x k : Nat) : (groups x k).length = k := by
  induction k with
  | zero => rfl
  | succ k ih => rw [groups, List.length_cons, ih]

section

variable {x k : Nat} (hx : x < 2 ^ 32)

include hx

theorem numBytes_eq : numBytes 4 (x / 2 ^ 3) =
    if 2 ^ 28 ≤ x then 5 else if 2 ^ 21 ≤ x then 4 else if 2 ^ 14 ≤ x then 3 else if 2 ^ 7 ≤ x then 2 else 1 := by
  simp only [numBytes]
  split_ifs <;> omega

/-- Reading goes on where the bits read so far end. -/
theorem readVarSize_groups (hk : 1 ≤ k) (n : Nat) (rest : List UInt8) :
    readVarSize (x / 128 ^ k) n (groups x k ++ rest) = some (x, n + k) := by
  induction k, hk using Nat.le_induction generalizing n with
  | base =>
    simp [groups, readVarSize, show ¬128 ≤ x % 128 % 256 by omega]
    omega
  | succ i hi ih =>
    have hle := Nat.div_le_self x (128 ^ i)
    rw [groups, List.cons_append, readVarSize, Nat.pow_succ, ← Nat.div_div_eq_div_mul, if_pos (show 0 < i from hi)]
    generalize x / 128 ^ i = z at *
    have hb : (UInt8.ofNat (z % 128 + 128)).toNat = z % 128 + 128 := by
      rw [UInt8.toNat_ofNat']
      omega
    rw [hb, if_pos (by omega), show z / 128 * 2 ^ 7 % 2 ^ 32 + (z % 128 + 128) % 128 = z by omega, ih,
      Nat.add_right_comm, Nat.add_assoc]

theorem readVarSize_write (rest : List UInt8) :
    readVarSize 0 0 (writeVarSize x ++ rest) = some (x, (writeVarSize x).length) := by
  have hnum : 0 < numBytes 4 (x / 2 ^ 3) ∧ x < 128 ^ numBytes 4 (x / 2 ^ 3) := by
    rw [numBytes_eq hx]
    split_ifs <;> omega
  have h := readVarSize_groups hx hnum.1 0 rest
  rw [Nat.div_eq_of_lt hnum.2, Nat.zero_add] at h
  rw [writeVarSize, h, groups_length]

end

/-- A number that is not 0 does not begin with a byte 0. -/
theorem readVarSize_head {x n : Nat} {buf : List UInt8} (h : readVarSize 0 0 buf = some (x, n)) (hpos : 0 < x) :
    ∃ b, buf.head? = some b ∧ b ≠ 0 := by
  cases buf with
  | nil => cases h
  | cons b buf =>
    refine ⟨b, rfl, ?_⟩
    rintro rfl
    simp [readVarSize] at h
    omega

/-! ## the coder -/

/-- `LZ_MAX_OFFSET` -/
def maxOffset : Nat := 100000

/-- The input of `LZ_Compress` in memory: it reads one byte behind the end, too.  No `int` overflows. -/
structure Input where
  mem : Nat → UInt8
  size : Nat
  size_lt : size < 2 ^ 30

namespace Input

variable (I : Input)

def slice (pos len : Nat) : List UInt8 := (List.range' pos len).map I.mem

def histogram (b : UInt8) : Nat := (I.slice 0 I.size).count b

/-- The search for the least common byte. -/
def markerLoop : Nat → UInt8
  | 0 => 0
  | i + 1 =>
    let marker := markerLoop i
    if I.histogram (UInt8.ofNat (i + 1)) < I.histogram marker then UInt8.ofNat (i + 1) else marker

def marker : UInt8 := I.markerLoop 255

/-- `_LZ_StringCompare` from 0 on: where the bytes differ first -/
def stringCompare (str1 str2 maxlen : Nat) : Nat :=
  ((List.range maxlen).find? fun len => I.mem (str1 + len) ≠ I.mem (str2 + len)).getD maxlen

/-- The longest match: its length and its offset. -/
def search (inpos : Nat) : Nat × Nat :=
  (List.range' 3 (min inpos maxOffset - 2)).foldl (fun best offset =>
    if I.mem inpos = I.mem (inpos - offset) ∧ I.mem (inpos + best.1) = I.mem (inpos - offset + best.1) then
      let length := I.stringCompare inpos (inpos - offset) (min (I.size - inpos) offset)
      if best.1 < length then (length, offset) else best
    else best) (3, 0)

/-- A single byte, or two bytes if it is the marker. -/
def literal (b : UInt8) : List UInt8 := if b = I.marker then [b, 0] else [b]

/-- One turn of the main loop: what is written, and for how many bytes. -/
def turn (inpos : Nat) : List UInt8 × Nat :=
  let (length, offset) := I.search inpos
  if 8 ≤ length ∨ length = 4 ∧ offset ≤ 0x7f ∨ length = 5 ∧ offset ≤ 0x3fff ∨ length = 6 ∧ offset ≤ 0x1fffff ∨
      length = 7 ∧ offset ≤ 0xfffffff then
    (I.marker :: (writeVarSize length ++ writeVarSize offset), length)
  else (I.literal (I.mem inpos), 1)

theorem turn_pos (inpos : Nat) : 0 < (I.turn inpos).2 := by
  unfold turn
  dsimp only
  split
  · dsimp only
    omega
  · exact Nat.one_pos

/-- The loops of `LZ_Compress`; `bytesleft` is `size - inpos`. -/
def compressLoop (inpos : Nat) : List UInt8 :=
  let next := inpos + (I.turn inpos).2
  (I.turn inpos).1 ++
    if 3 < I.size - next then compressLoop next else (I.slice next (I.size - next)).flatMap I.literal
termination_by I.size - inpos
decreasing_by
  have := I.turn_pos inpos
  omega

/-- `LZ_Compress` -/
def compress : List UInt8 := if I.size < 1 then [] else I.marker :: I.compressLoop 0

end Input

/-! ## the decoder -/

/-- The loop that copies from the history; `false` if the output is full. -/
def copy (outsize offset : Nat) : Nat → List UInt8 → Option (Bool × List UInt8)
  | 0, out => some (true, out)
  | n + 1, out =>
    if outsize ≤ out.length then some (false, out)
    else if offset ≤ out.length then out[out.length - offset]?.bind fun b => copy outsize offset n (out ++ [b])
    else none

/-- The loop of `lz_uncompress` -/
def uncompressLoop (marker : UInt8) (outsize : Nat) : List UInt8 → List UInt8 → Option (Int × List UInt8)
  | [], out => some (out.length, out)
  | symbol :: inp, out =>
    if symbol = marker then do
      if (← inp.head?) = 0 then
        -- `return true`
        if outsize ≤ out.length then some (1, out) else uncompressLoop marker outsize inp.tail (out ++ [marker])
      else
        let (length, n) ← readVarSize 0 0 inp
        let (offset, n') ← readVarSize 0 0 (inp.drop n)
        let (ok, out) ← copy outsize offset length out
        if ok then uncompressLoop marker outsize ((inp.drop n).drop n') out else some (-1, out)
    else if outsize ≤ out.length then some (-1, out)
    else uncompressLoop marker outsize inp (out ++ [symbol])
termination_by inp => inp.length
decreasing_by all_goals grind

/-- `lz_uncompress`: what it returns and writes, `none` if it reads outside -/
def lzUncompress (outsize : Nat) : List UInt8 → Option (Int × List UInt8)
  | [] => some (-1, [])
  | marker :: inp => if inp = [] then none else uncompressLoop marker outsize inp []

/-! ## decoding -/

namespace Input

variable {I : Input} {outsize pos n n' : Nat} {bytes bytes' : List UInt8}

theorem slice_succ : I.slice 0 (n + 1) = I.slice 0 n ++ [I.mem n] := by
  simp [slice, List.range'_1_concat]

theorem slice_append : I.slice pos (n + n') = I.slice pos n ++ I.slice (pos + n) n' := by
  simp [slice, ← List.range'_append_1]

@[simp] theorem slice_length : (I.slice pos n).length = n := by simp [slice]

/-- Bytes that are decoded to the next `n` bytes of the input. -/
structure Codes (I : Input) (outsize pos : Nat) (bytes : List UInt8) (n : Nat) : Prop where
  length : min n 3 ≤ bytes.length ∧ bytes.length ≤ n + (I.slice pos n).count I.marker
  decodes rest : uncompressLoop I.marker outsize (bytes ++ rest) (I.slice 0 pos) =
    uncompressLoop I.marker outsize rest (I.slice 0 (pos + n))

theorem Codes.append (h : Codes I outsize pos bytes n) (h' : Codes I outsize (pos + n) bytes' n') :
    Codes I outsize pos (bytes ++ bytes') (n + n') := by
  have := h.length
  have := h'.length
  refine ⟨?_, fun rest => ?_⟩
  · rw [slice_append, List.count_append, List.length_append]
    omega
  · rw [List.append_assoc, h.decodes, h'.decodes, Nat.add_assoc]

theorem codes_literal (hpos : pos < outsize) : Codes I outsize pos (I.literal (I.mem pos)) 1 := by
  unfold literal
  split
  next h => exact ⟨by simp [slice, h], by simp [uncompressLoop, h, hpos, slice_succ]⟩
  next h => exact ⟨by simp, by simp [uncompressLoop, h, hpos, slice_succ]⟩

theorem codes_literals (hpos : pos + n ≤ outsize) : Codes I outsize pos ((I.slice pos n).flatMap I.literal) n := by
  induction n with
  | zero => exact ⟨by simp [slice], fun _ => rfl⟩
  | succ n ih =>
    rw [slice_append, List.flatMap_append]
    exact (ih (by omega)).append (by simpa [slice] using codes_literal (by omega))

theorem copy_slice {offset : Nat} (hpos : 0 < offset) (hle : offset ≤ pos) (hout : pos + n ≤ outsize)
    (h : ∀ i < n, I.mem (pos + i) = I.mem (pos - offset + i)) :
    copy outsize offset n (I.slice 0 pos) = some (true, I.slice 0 (pos + n)) := by
  induction n generalizing pos with
  | zero => rfl
  | succ n ih =>
    have hget : (I.slice 0 pos)[pos - offset]? = some (I.mem pos) := by
      simpa [slice, show pos - offset < pos by omega] using (h 0 (Nat.succ_pos n)).symm
    rw [copy, slice_length, if_neg (by omega), if_pos hle, hget, Option.bind_some, ← slice_succ, ih (by omega) (by omega),
      Nat.add_assoc, Nat.add_comm 1]
    intro i hi
    simpa [Nat.sub_add_comm hle, Nat.add_assoc, Nat.add_comm 1] using h (i + 1) (by omega)

theorem stringCompare_spec (a b k : Nat) : I.stringCompare a b k ≤ k ∧
    ∀ i < I.stringCompare a b k, I.mem (a + i) = I.mem (b + i) := by
  unfold stringCompare
  cases h : (List.range k).find? _ with
  | none => simpa using h
  | some len => simp_all [List.find?_range_eq_some, Nat.le_of_lt]

/-- What a match is, if it is longer than 3. -/
def Matches (I : Input) (pos : Nat) (best : Nat × Nat) : Prop :=
  3 < best.1 → pos + best.1 ≤ I.size ∧ 0 < best.2 ∧ best.2 ≤ pos ∧ best.2 ≤ maxOffset ∧
    ∀ i < best.1, I.mem (pos + i) = I.mem (pos - best.2 + i)

theorem search_matches (pos : Nat) : I.Matches pos (I.search pos) := by
  refine List.foldlRecOn _ _ (fun h => absurd h (by decide)) fun best hbest offset hmem => ?_
  rw [List.mem_range'_1] at hmem
  split
  · dsimp only
    split
    · obtain ⟨hle, heq⟩ := stringCompare_spec (I := I) pos (pos - offset) (min (I.size - pos) offset)
      exact fun h => ⟨by omega, by omega, by omega, by omega, heq⟩
    · exact hbest
  · exact hbest

theorem codes_turn (hout : I.size ≤ outsize) (hpos : pos < I.size) :
    pos + (I.turn pos).2 ≤ I.size ∧ Codes I outsize pos (I.turn pos).1 (I.turn pos).2 := by
  have hm := search_matches (I := I) pos
  have hlt := I.size_lt
  unfold turn
  generalize I.search pos = best at hm
  obtain ⟨len, off⟩ := best
  dsimp only at hm ⊢
  split
  next hg =>
    obtain ⟨hin, hoff, hle, hmax, heq⟩ := hm (by omega)
    refine ⟨hin, ?_, fun rest => ?_⟩
    · unfold maxOffset at hmax
      simp only [writeVarSize, List.length_cons, List.length_append, groups_length]
      rw [numBytes_eq (x := len) (by omega), numBytes_eq (x := off) (by omega)]
      split_ifs <;> omega
    · have h1 := readVarSize_write (x := len) (by omega) (writeVarSize off ++ rest)
      have h2 := readVarSize_write (x := off) (by omega) rest
      obtain ⟨b, hb, hne⟩ := readVarSize_head h1 (by omega)
      have hcopy := copy_slice hoff hle (Nat.le_trans hin hout) heq
      simp [-List.head?_append, uncompressLoop, hb, hne, h1, h2, hcopy]
  next => exact ⟨hpos, codes_literal (by omega)⟩

theorem codes_loop {pos : Nat} (hout : I.size ≤ outsize) (hpos : pos < I.size) :
    Codes I outsize pos (I.compressLoop pos) (I.size - pos) := by
  obtain ⟨hin, hturn⟩ := codes_turn hout hpos
  have := I.turn_pos pos
  rw [compressLoop, show I.size - pos = (I.turn pos).2 + (I.size - (pos + (I.turn pos).2)) by omega]
  refine hturn.append ?_
  split
  · exact codes_loop hout (by omega)
  · exact codes_literals (by omega)
termination_by I.size - pos

theorem markerLoop_le (I : Input) {b : UInt8} {i : Nat} (hb : b.toNat ≤ i) :
    I.histogram (I.markerLoop i) ≤ I.histogram b := by
  induction i with
  | zero =>
    obtain rfl : b = 0 := UInt8.toNat_inj.mp (Nat.le_zero.mp hb)
    rfl
  | succ i ih =>
    rw [markerLoop]
    rcases Nat.lt_or_eq_of_le hb with hb | hb
    · have := ih (Nat.le_of_lt_succ hb)
      split <;> omega
    · rw [← hb, UInt8.ofNat_toNat]
      split <;> omega

/-- The marker is the least common one of 256 bytes. -/
theorem marker_count (I : Input) : 256 * (I.slice 0 I.size).count I.marker ≤ I.size := by
  let _ : Fintype UInt8 := .ofEquiv (Fin 256) ⟨UInt8.ofFin, UInt8.toFin, fun _ => rfl, fun _ => rfl⟩
  have hall := Multiset.sum_count_eq_card (m := .ofList (I.slice 0 I.size)) fun b _ => Finset.mem_univ b
  have hle := Finset.univ.card_nsmul_le_sum I.histogram (I.histogram I.marker) fun b _ =>
    I.markerLoop_le (Nat.le_of_lt_succ b.toNat_lt)
  simp only [Multiset.coe_count, Multiset.coe_card, slice_length] at hall
  rw [Finset.card_univ, Fintype.ofEquiv_card, Fintype.card_fin] at hle
  exact hle.trans_eq hall

theorem compress_spec (hpos : 0 < I.size) (hout : I.size ≤ outsize) :
    lzUncompress outsize I.compress = some ((I.size : Int), I.slice 0 I.size) ∧
      1 + min I.size 3 ≤ I.compress.length ∧ I.compress.length ≤ I.size + I.size / 256 + 1 := by
  obtain ⟨hlength, hd⟩ := codes_loop hout hpos
  have hne : I.compressLoop 0 ≠ [] := List.ne_nil_of_length_pos (by omega)
  have hcount := I.marker_count
  rw [Nat.sub_zero] at hlength
  rw [compress, if_neg (by omega), List.length_cons, lzUncompress, if_neg hne]
  exact ⟨by simpa [slice, uncompressLoop] using hd [], by omega, by omega⟩

/-- **What is compressed is unpacked again**: the decoder gets back all the bytes if it has
room for them, and the compressed data are not longer than documented. -/
theorem lz_roundtrip (hpos : 0 < I.size) (hout : I.size ≤ outsize) :
    lzUncompress outsize I.compress = some ((I.size : Int), I.slice 0 I.size) ∧
      I.compress.length ≤ I.size + I.size / 256 + 1 :=
  ⟨(compress_spec hpos hout).1, (compress_spec hpos hout).2.2⟩

def sevens : Input := ⟨fun _ => 7, 20, by decide⟩

theorem lz_roundtrip_sevens : lzUncompress 256 sevens.compress = some (20, List.replicate 20 7) :=
  (lz_roundtrip (I := sevens) (by decide) (by decide)).1

end Input

/-! ## pictures -/

/-- The `LEN` byte of a line. -/
def Input.len (I : Input) : UInt8 := UInt8.ofNat I.compress.length - 3

/-- The data that `create_raw_bitmap` writes for the lines it had in `ltmp_buf`. -/
def imageData (lines : List Input) : List UInt8 := lines.flatMap (fun I => I.len :: I.compress) ++ [0]

/-- The loop of `draw_image`: the chunks it draws, and `false` if it stops with an error -/
def unpack : List UInt8 → Option (Bool × List (List UInt8))
  | [] => none
  | b :: data =>
    if b = 0 then some (true, [])
    else if data.length < b.toNat + 3 then none
    else
      (lzUncompress 256 (data.take (b.toNat + 3))).bind fun (ulen, out) =>
        if ulen < 0 then some (false, [])
        else (unpack (data.drop (b.toNat + 3))).map fun (ok, chunks) => (ok, out.take ulen.toNat :: chunks)
termination_by data => data.length
decreasing_by
  grind

/-- **Pictures are drawn from all their bytes**: each line of 3 to 256 bytes has a length
byte that is not the end mark, and is unpacked to the same bytes. -/
theorem picture_roundtrip (lines : List Input) (h : ∀ I ∈ lines, 3 ≤ I.size ∧ I.size ≤ 256) :
    unpack (imageData lines) = some (true, lines.map fun I => I.slice 0 I.size) := by
  induction lines with
  | nil => simp [imageData, unpack]
  | cons I lines ih =>
    obtain ⟨⟨hmin, hmax⟩, hlines⟩ := List.forall_mem_cons.mp h
    obtain ⟨hround, hlen⟩ := Input.compress_spec (I := I) (by omega) hmax
    have hbyte : I.len.toNat + 3 = I.compress.length := by
      rw [Input.len, UInt8.toNat_sub, UInt8.toNat_ofNat', show UInt8.toNat 3 = 3 from rfl]
      omega
    have hne : I.len ≠ 0 := fun h0 => by
      rw [h0, UInt8.toNat_zero] at hbyte
      omega
    have hdata : imageData (I :: lines) = I.len :: (I.compress ++ imageData lines) := by simp [imageData]
    rw [hdata, unpack, if_neg hne, hbyte, if_neg (by simp), List.take_left, List.drop_left, hround, ih hlines,
      Option.bind_some]
    simp [show ¬(I.size : Int) < 0 by omega]

/-- A line that packs, one that does not, and the first one again. -/
theorem picture_roundtrip_sevens : unpack (imageData [.sevens, ⟨UInt8.ofNat, 4, by decide⟩, .sevens]) =
    some (true, [List.replicate 20 7, [0, 1, 2, 3], List.replicate 20 7]) :=
  picture_roundtrip [.sevens, ⟨UInt8.ofNat, 4, by decide⟩, .sevens] (by decide)

end Isix.Gdi.Lz
