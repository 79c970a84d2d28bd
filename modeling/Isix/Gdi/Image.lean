import Isix.Lib.Buffer

/-!
# Isix.Gdi.Image

One-bit images of libgfx (`gdi::draw_image`).  A chunk of the image is unpacked
into the end of the render buffer of the display, and its pixels are collected
in the same buffer, from its start on, until they are a display line.
-/

namespace Isix.Gdi

open Buffer (Buf)
open Ring (slice)

/-- `max_size` -/
def maxSize : Nat := 256

/-- A display with its render buffer of `rbuf` colours, in which a chunk has room behind a line. -/
structure Display where
  width : Nat
  /-- `sizeof(color_t)` -/
  colorSize : Nat
  rbuf : Nat
  sizes : colorSize = 2 ∨ colorSize = 4
  whole : 8 ∣ width
  wide : 8 ≤ width
  room : width + maxSize / colorSize ≤ rbuf

/-- `color_t`, as its bytes in memory -/
abbrev Display.Color (d : Display) := Vector UInt8 d.colorSize

/-- `lz_buf`, in bytes from the start of the render buffer -/
def Display.lzBuf (d : Display) : Nat :=
  if d.colorSize = 1 then 0 else (d.rbuf - maxSize / d.colorSize) * d.colorSize

/-- The loops of `draw_image`; `out` is what was passed to `ll_blit`. -/
structure Image where
  pp : Nat := 0
  dispPos : Int := 0
  buf : Buf
  out : List UInt8 := []

section

variable (d : Display) (fg bg : d.Color) (width height : UInt16)

/-- The eight colours of a byte: `(pb&(1<<(7-b)))?(m_color):(m_bg_color)` -/
def bytePixels (pb : UInt8) : List UInt8 :=
  (List.range 8).flatMap fun b => (if pb.toNat.testBit (7 - b) then fg else bg).toList

/-- The colours of bytes of an image, in order. -/
def pixels (bytes : List UInt8) : List UInt8 := bytes.flatMap (bytePixels d fg bg)

/-- `lz_uncompress` of a chunk -/
def Image.unpack (chunk : List UInt8) (s : Image) : Image :=
  { s with buf := ⟨Ring.blit d.lzBuf chunk s.buf.mem, s.buf.touched⟩ }

/-- `ll_blit( buf.first, len )` and `disp_pos += len` -/
def Image.blit (len : Int) (s : Image) : Option Image :=
  if 0 ≤ len ∧ len ≤ d.rbuf then
    some { s with dispPos := s.dispPos + len, out := s.out ++ slice 0 (len.toNat * d.colorSize) s.buf.mem }
  else none

/-- A full line goes to the display. -/
def Image.flush (s : Image) : Option Image :=
  if d.width ≤ s.pp then (s.blit d s.pp).map fun s => { s with pp := 0 } else some s

/-- The colours of a byte go to the line. -/
def Image.store (pb : UInt8) (s : Image) : Image :=
  { s with buf := s.buf.write (s.pp * d.colorSize) (bytePixels d fg bg pb) }

/-- The end of a chunk; the number of pixels is an `int` product. -/
def Image.finish (s : Image) : Option Image :=
  if s.dispPos ≠ 0 then
    let rx := (BitVec.ofNat 32 (width.toNat * height.toNat)).toInt - s.dispPos
    s.blit d (if rx < s.pp + 8 then rx else s.pp + 8)
  else some s

/-- One turn of the loop over the bytes of a chunk. -/
def drawByte (last : Bool) (p : Nat) (s : Image) : Option Image :=
  let pb := s.buf.mem (d.lzBuf + p)
  (s.flush d).bind fun s =>
    let s := s.store d fg bg pb
    (if last then s.finish d width height else some s).map fun s => { s with pp := s.pp + 8 }

def drawBytes : Nat → Nat → Image → Option Image
  | 0, _, s => some { s with pp := 0 }
  | n + 1, p, s => (drawByte d fg bg width height (n == 0) p s).bind (drawBytes n (p + 1))

def drawChunk (chunk : List UInt8) (s : Image) : Option Image :=
  drawBytes d fg bg width height chunk.length 0 (s.unpack d chunk)

/-- `draw_image` of a one-bit bitmap, given the chunks its data decompresses to -/
def drawImage : List (List UInt8) → Image → Option Image
  | [], s => some s
  | chunk :: rest, s => (drawChunk d fg bg width height chunk s).bind (drawImage rest)

end

variable {d : Display} {fg bg : d.Color} {width height : UInt16} {s s' : Image} {last : Bool} {n p : Nat}

theorem Display.width_le (d : Display) : d.width ≤ d.rbuf := Nat.le_of_add_right_le d.room

theorem Display.colorSize_pos (d : Display) : 0 < d.colorSize := by
  have hsizes := d.sizes
  omega

theorem Display.line_le_lzBuf (d : Display) : d.width * d.colorSize ≤ d.lzBuf := by
  have hroom := d.room
  have hsizes := d.sizes
  unfold lzBuf
  rw [if_neg (by omega)]
  exact Nat.mul_le_mul_right _ (by omega)

theorem length_bytePixels (pb : UInt8) : (bytePixels d fg bg pb).length = 8 * d.colorSize := by
  simp [bytePixels, List.length_flatMap]
  omega

theorem length_pixels (bytes : List UInt8) : (pixels d fg bg bytes).length = 8 * bytes.length * d.colorSize := by
  unfold pixels
  simp only [List.length_flatMap, length_bytePixels, List.map_const', List.sum_replicate_nat]
  rw [Nat.mul_left_comm, Nat.mul_assoc]

theorem pixels_append (bytes bytes' : List UInt8) :
    pixels d fg bg (bytes ++ bytes') = pixels d fg bg bytes ++ pixels d fg bg bytes' :=
  List.flatMap_append

/-! ## what is shown -/

/-- The bytes `done` are on the display or in the line, and the chunk is behind the line. -/
structure Shown (fg bg : d.Color) (chunk done : List UInt8) (s : Image) : Prop where
  shown : s.out ++ slice 0 (s.pp * d.colorSize) s.buf.mem = pixels d fg bg done
  line : s.pp ≤ d.width
  whole : 8 ∣ s.pp
  dispPos : s.dispPos * d.colorSize = s.out.length
  chunk : slice d.lzBuf chunk.length s.buf.mem = chunk
  inside : ∀ q ∈ s.buf.touched, q < d.width * d.colorSize

namespace Shown

variable {chunk done : List UInt8}

/-- The pixels of the line go to the display. -/
theorem blit {len : Nat} (h : Shown fg bg chunk done { s with pp := len }) :
    ∃ s', s.blit d len = some s' ∧ Shown fg bg chunk done { s' with pp := 0 } := by
  have hline : len ≤ d.width := h.line
  have hwidth := d.width_le
  unfold Image.blit
  rw [if_pos (by omega)]
  refine ⟨_, rfl, ?_, Nat.zero_le _, Nat.dvd_zero _, ?_, h.chunk, h.inside⟩
  · simpa [slice] using h.shown
  · have hpos := h.dispPos
    simp only [List.length_append, Ring.length_slice, Int.toNat_natCast]
    push_cast
    rw [Int.add_mul, hpos]

section

variable (h : Shown fg bg chunk done s)

include h

theorem flush : ∃ s', s.flush d = some s' ∧ Shown fg bg chunk done s' ∧ s'.pp + 8 ≤ d.width := by
  unfold Image.flush
  by_cases hfull : d.width ≤ s.pp
  · obtain ⟨s', hs, h'⟩ := h.blit
    exact ⟨_, by rw [if_pos hfull, hs]; rfl, h', by simpa using d.wide⟩
  · refine ⟨s, if_neg hfull, h, ?_⟩
    have hrest := Nat.le_of_dvd (by omega) (Nat.dvd_sub d.whole h.whole)
    omega

/-- Pixels are stored in the line, before the chunk. -/
theorem store (hroom : s.pp + 8 ≤ d.width) (pb : UInt8) :
    Shown fg bg chunk (done ++ [pb]) { s.store d fg bg pb with pp := s.pp + 8 } := by
  have hlz := d.line_le_lzBuf
  have hlen : (bytePixels d fg bg pb).length = 8 * d.colorSize := length_bytePixels pb
  have hend : s.pp * d.colorSize + 8 * d.colorSize ≤ d.width * d.colorSize := by
    rw [← Nat.add_mul]
    exact Nat.mul_le_mul_right _ hroom
  refine ⟨?_, hroom, (Nat.dvd_add_right h.whole).mpr (Nat.dvd_refl 8), h.dispPos, ?_, fun q hq => ?_⟩
  · have hold := Buffer.slice_write_outside (p := 0) (n := s.pp * d.colorSize) (l := bytePixels d fg bg pb) (b := s.buf)
      (a := s.pp * d.colorSize) (.inl (by omega))
    have hnew := Buffer.slice_write (p := s.pp * d.colorSize) (l := bytePixels d fg bg pb) (b := s.buf)
    rw [hlen] at hnew
    dsimp only [Image.store]
    rw [Nat.add_mul, Ring.slice_add, hold, Nat.zero_add, hnew, ← List.append_assoc, h.shown, pixels_append]
    simp [pixels]
  · rw [← h.chunk]
    simp only [Ring.length_slice]
    exact Buffer.slice_write_outside (.inr (by omega))
  · rcases Buffer.mem_touched_write.mp hq with hq | hq
    · omega
    · exact h.inside q hq

/-- A byte of the chunk is read where it was unpacked. -/
theorem read (hp : p < chunk.length) : s.buf.mem (d.lzBuf + p) = chunk[p] := by
  have hslice := congrArg (·[p]?) h.chunk
  simpa [slice, hp] using hslice

theorem drawByte (last : Bool) (hp : p < chunk.length) (hlast : last → d.width < 8 * (done.length + 1))
    (hsize : 8 * (done.length + 1) ≤ width.toNat * height.toNat) (hint : width.toNat * height.toNat < 2 ^ 31) :
    ∃ s', Gdi.drawByte d fg bg width height last p s = some s' ∧
      Shown fg bg chunk (done ++ [chunk[p]]) (if last then { s' with pp := 0 } else s') := by
  obtain ⟨s₁, hs₁, h₁, hroom⟩ := h.flush
  have h₂ := h₁.store hroom chunk[p]
  unfold Gdi.drawByte
  rw [h.read hp, hs₁]
  cases last with
  | false => exact ⟨_, rfl, h₂⟩
  | true =>
    have hlast := hlast rfl
    -- something is on the display already, and the image has room for the rest of the chunk
    have hcount : s₁.dispPos + (s₁.pp + 8 : Nat) = (8 * (done.length + 1) : Nat) := by
      have hshown := congrArg List.length h₂.shown
      have hout := h₂.dispPos
      rw [length_pixels, List.length_append, Ring.length_slice, List.length_append, List.length_singleton] at hshown
      dsimp only [Image.store] at hshown hout
      have hmul : (s₁.dispPos + (s₁.pp + 8 : Nat)) * d.colorSize = (8 * (done.length + 1) : Nat) * d.colorSize := by
        rw [Int.add_mul, hout]
        exact_mod_cast hshown
      exact Int.eq_of_mul_eq_mul_right (by have := d.colorSize_pos; omega) hmul
    have hrx : (BitVec.ofNat 32 (width.toNat * height.toNat)).toInt = (width.toNat * height.toNat : Nat) := by
      rw [BitVec.toInt_eq_toNat_of_lt (by simp; omega), BitVec.toNat_ofNat, Nat.mod_eq_of_lt (by omega)]
    obtain ⟨s₂, hs₂, h₃⟩ := h₂.blit
    refine ⟨{ s₂ with pp := s₂.pp + 8 }, ?_, h₃⟩
    simp only [Option.bind_some, if_true, Image.finish, hrx]
    have hpos : (s₁.store d fg bg chunk[p]).dispPos = s₁.dispPos := rfl
    have hpp : (s₁.store d fg bg chunk[p]).pp = s₁.pp := rfl
    rw [if_pos (by omega), if_neg (by omega)]
    exact congrArg (Option.map _) hs₂

end

/-- The bytes of a chunk from `p` on, when at its end something is on the display. -/
theorem drawBytes (hint : width.toNat * height.toNat < 2 ^ 31) (hn : n ≠ 0) (hp : p + n = chunk.length)
    (h : Shown fg bg chunk done s) (hlast : d.width < 8 * (done.length + n))
    (hsize : 8 * (done.length + n) ≤ width.toNat * height.toNat) :
    ∃ s', Gdi.drawBytes d fg bg width height n p s = some s' ∧ Shown fg bg chunk (done ++ chunk.drop p) s' ∧ s'.pp = 0 := by
  induction n generalizing p done s with
  | zero => exact absurd rfl hn
  | succ n ih =>
    have hlt : p < chunk.length := by omega
    obtain ⟨s₁, hs₁, h₁⟩ := h.drawByte (n == 0) hlt (by intro hz; simp at hz; omega) (by omega) hint
    have hlen : (done ++ [chunk[p]]).length = done.length + 1 := by simp
    rw [Gdi.drawBytes, hs₁, Option.bind_some, List.drop_eq_getElem_cons hlt, List.append_cons]
    cases n with
    | zero =>
      rw [List.drop_of_length_le (by omega), List.append_nil]
      exact ⟨_, rfl, h₁, rfl⟩
    | succ n => exact ih (by omega) (by omega) h₁ (by omega) (by omega)

/-- A chunk that is not the first, or is longer than a line, is shown whole. -/
theorem drawChunk (hint : width.toNat * height.toNat < 2 ^ 31) {chunk' : List UInt8} (hne : chunk' ≠ [])
    (h : Shown fg bg chunk done s) (hpp : s.pp = 0) (hlast : d.width < 8 * (done ++ chunk').length)
    (hsize : 8 * (done ++ chunk').length ≤ width.toNat * height.toNat) :
    ∃ s', Gdi.drawChunk d fg bg width height chunk' s = some s' ∧ Shown fg bg chunk' (done ++ chunk') s' ∧ s'.pp = 0 := by
  rw [List.length_append] at hlast hsize
  have hunpack : Shown fg bg chunk' done (s.unpack d chunk') := by
    refine ⟨?_, h.line, h.whole, h.dispPos, Ring.slice_blit_self rfl, h.inside⟩
    have hshown := h.shown
    rw [hpp] at hshown
    simpa [Image.unpack, hpp, slice] using hshown
  exact hunpack.drawBytes hint (by simpa using hne) (Nat.zero_add _) hlast hsize

theorem drawImage (hint : width.toNat * height.toNat < 2 ^ 31) {chunks : List (List UInt8)}
    (hne : ∀ chunk ∈ chunks, chunk ≠ []) (h : Shown fg bg chunk done s) (hpp : s.pp = 0)
    (hfirst : ∀ chunk ∈ chunks.head?, d.width < 8 * (done ++ chunk).length)
    (hsize : 8 * (done ++ chunks.flatten).length ≤ width.toNat * height.toNat) :
    ∃ s' chunk', Gdi.drawImage d fg bg width height chunks s = some s' ∧
      Shown fg bg chunk' (done ++ chunks.flatten) s' ∧ s'.pp = 0 := by
  induction chunks generalizing chunk done s with
  | nil =>
    rw [List.flatten_nil, List.append_nil]
    exact ⟨s, chunk, rfl, h, hpp⟩
  | cons chunk' rest ih =>
    rw [List.flatten_cons, ← List.append_assoc] at hsize ⊢
    have hlong := hfirst chunk' rfl
    rw [List.length_append] at hsize
    obtain ⟨s₁, hs₁, h₁, hpp₁⟩ := h.drawChunk hint (hne chunk' (List.mem_cons_self ..)) hpp hlong (by omega)
    rw [Gdi.drawImage, hs₁, Option.bind_some]
    refine ih (fun c hc => hne c (List.mem_cons_of_mem _ hc)) h₁ hpp₁ ?_ (by rw [List.length_append]; exact hsize)
    intro c hc
    rw [List.length_append]
    omega

end Shown

/-! ## what is lost -/

/-- As many pixels were passed on as `disp_pos` says. -/
def Counted (d : Display) (s : Image) : Prop := s.dispPos * d.colorSize = s.out.length

theorem Counted.blit {len : Int} (h : Counted d s) (hs : s.blit d len = some s') :
    Counted d s' ∧ s'.pp = s.pp ∧ (s'.out.length : Int) = s.out.length + len * d.colorSize := by
  unfold Image.blit at hs
  split at hs
  · rename_i hlen
    rw [← Option.some.inj hs]
    unfold Counted at h ⊢
    obtain ⟨k, rfl⟩ := Int.eq_ofNat_of_zero_le hlen.1
    simp only [List.length_append, Ring.length_slice, Int.toNat_natCast]
    push_cast
    rw [Int.add_mul, h]
    exact ⟨rfl, trivial, rfl⟩
  · cases hs

theorem Counted.flush (h : Counted d s) (hs : s.flush d = some s') :
    Counted d s' ∧ s'.out.length + s'.pp * d.colorSize = s.out.length + s.pp * d.colorSize := by
  unfold Image.flush at hs
  split at hs
  · obtain ⟨s₁, hs₁, rfl⟩ := Option.map_eq_some_iff.mp hs
    obtain ⟨hc, -, hlen⟩ := h.blit hs₁
    refine ⟨hc, ?_⟩
    dsimp only
    omega
  · rw [← Option.some.inj hs]
    exact ⟨h, rfl⟩

theorem Counted.finish (h : Counted d s) (hs : s.finish d width height = some s') :
    Counted d s' ∧ s'.out.length ≤ s.out.length + (s.pp + 8) * d.colorSize := by
  unfold Image.finish at hs
  split at hs
  · obtain ⟨h', -, hout⟩ := h.blit hs
    refine ⟨h', ?_⟩
    have hle := Int.mul_le_mul_of_nonneg_right (c := (d.colorSize : Int))
      (show (if (BitVec.ofNat 32 (width.toNat * height.toNat)).toInt - s.dispPos < s.pp + 8 then
        (BitVec.ofNat 32 (width.toNat * height.toNat)).toInt - s.dispPos else s.pp + 8) ≤ ((s.pp + 8 : Nat) : Int) by
          split <;> omega) (Int.natCast_nonneg _)
    have hcast : (((s.pp + 8) * d.colorSize : Nat) : Int) = ((s.pp + 8 : Nat) : Int) * d.colorSize := Int.natCast_mul _ _
    omega
  · rw [← Option.some.inj hs]
    exact ⟨h, Nat.le_add_right _ _⟩

/-- No more pixels are passed on than there are. -/
theorem Counted.drawByte (h : Counted d s) (hs : drawByte d fg bg width height last p s = some s') :
    Counted d s' ∧ s'.out.length + (if last then 0 else s'.pp * d.colorSize) ≤ s.out.length + (s.pp + 8) * d.colorSize := by
  unfold Gdi.drawByte at hs
  obtain ⟨s₁, hs₁, hs⟩ := Option.bind_eq_some_iff.mp hs
  obtain ⟨h₁, hlen⟩ := h.flush hs₁
  obtain ⟨s₂, hs₂, rfl⟩ := Option.map_eq_some_iff.mp hs
  cases last with
  | false =>
    obtain rfl := Option.some.inj hs₂
    refine ⟨h₁, ?_⟩
    simp only [Bool.false_eq_true, if_false, Nat.add_mul, Image.store]
    omega
  | true =>
    obtain ⟨h₂, hout⟩ := Counted.finish (s := s₁.store d fg bg _) h₁ hs₂
    refine ⟨h₂, ?_⟩
    simp only [if_true, Nat.add_mul, Image.store] at hout ⊢
    omega

theorem Counted.drawBytes (h : Counted d s) (hs : drawBytes d fg bg width height n p s = some s') :
    Counted d s' ∧ s'.pp = 0 ∧ s'.out.length ≤ s.out.length + (s.pp + 8 * n) * d.colorSize := by
  induction n generalizing p s with
  | zero =>
    rw [← Option.some.inj hs]
    exact ⟨h, rfl, Nat.le_add_right _ _⟩
  | succ n ih =>
    obtain ⟨s₁, hs₁, hs⟩ := Option.bind_eq_some_iff.mp hs
    obtain ⟨h₁, hlen⟩ := h.drawByte hs₁
    obtain ⟨h₂, hpp, hle⟩ := ih h₁ hs
    refine ⟨h₂, hpp, ?_⟩
    cases n with
    | zero =>
      rw [← Option.some.inj hs]
      simpa using hlen
    | succ n =>
      simp only [Nat.add_mul, Nat.mul_add, Nat.succ_ne_zero, beq_iff_eq, if_false] at hlen hle ⊢
      omega

theorem Counted.drawImage {chunks : List (List UInt8)} (h : Counted d s) (hpp : s.pp = 0)
    (hs : drawImage d fg bg width height chunks s = some s') :
    s'.out.length ≤ s.out.length + 8 * chunks.flatten.length * d.colorSize := by
  induction chunks generalizing s with
  | nil =>
    rw [← Option.some.inj hs]
    exact Nat.le_add_right _ _
  | cons chunk rest ih =>
    obtain ⟨s₁, hs₁, hs⟩ := Option.bind_eq_some_iff.mp hs
    obtain ⟨h₁, hpp₁, hle₁⟩ := Counted.drawBytes (s := s.unpack d chunk) h hs₁
    have hle := ih h₁ hpp₁ hs
    have hpp' : (s.unpack d chunk).pp = 0 := hpp
    have hout : (s.unpack d chunk).out = s.out := rfl
    rw [hpp', hout, Nat.zero_add] at hle₁
    rw [List.flatten_cons, List.length_append, Nat.mul_add, Nat.add_mul]
    omega

/-- As long as nothing is on the display, the end of a line is lost with its chunk. -/
theorem drawBytes_short (fg bg : d.Color) (width height : UInt16) (p : Nat) (hline : s.pp + 8 * n ≤ d.width)
    (hpos : s.dispPos = 0) :
    ∃ s', drawBytes d fg bg width height n p s = some s' ∧ s'.pp = 0 ∧ s'.dispPos = 0 ∧ s'.out = s.out := by
  induction n generalizing p s with
  | zero => exact ⟨_, rfl, rfl, hpos, rfl⟩
  | succ n ih =>
    have hbyte : Gdi.drawByte d fg bg width height (n == 0) p s = some
        { s.store d fg bg (s.buf.mem (d.lzBuf + p)) with pp := s.pp + 8 } := by
      unfold drawByte Image.flush Image.finish
      rw [if_neg (by omega)]
      simp [Image.store, hpos]
    rw [drawBytes, hbyte, Option.bind_some]
    exact ih (p + 1) (by dsimp only; omega) hpos

/-- When the number of pixels overflows, nothing is on the display at the end of a chunk. -/
theorem finish_overflow (hover : 2 ^ 31 ≤ width.toNat * height.toNat) (h : Counted d s)
    (hs : s.finish d width height = some s') : s'.out = [] := by
  have hsize := d.colorSize_pos
  unfold Image.finish at hs
  split at hs
  · have hneg : (BitVec.ofNat 32 (width.toNat * height.toNat)).toInt < 0 := by
      have hprod : width.toNat * height.toNat < 2 ^ 16 * 2 ^ 16 := Nat.mul_lt_mul'' width.toNat_lt height.toNat_lt
      rw [BitVec.toInt_eq_toNat_cond, BitVec.toNat_ofNat, Nat.mod_eq_of_lt (by omega), if_neg (by omega)]
      omega
    have hnonneg : 0 ≤ s.dispPos := by
      unfold Counted at h
      by_contra hlt
      have := Int.mul_neg_of_neg_of_pos (Int.not_le.mp hlt) (by omega : 0 < (d.colorSize : Int))
      omega
    unfold Image.blit at hs
    dsimp only at hs
    rw [if_neg (by split <;> omega)] at hs
    cases hs
  · rename_i hz
    rw [← Option.some.inj hs]
    unfold Counted at h
    rw [not_not.mp hz, Int.zero_mul] at h
    exact List.length_eq_zero_iff.mp (by omega)

theorem drawBytes_overflow (hover : 2 ^ 31 ≤ width.toNat * height.toNat) (hn : n ≠ 0) (h : Counted d s)
    (hs : drawBytes d fg bg width height n p s = some s') : s'.out = [] := by
  induction n generalizing p s with
  | zero => exact absurd rfl hn
  | succ n ih =>
    obtain ⟨s₁, hs₁, hs⟩ := Option.bind_eq_some_iff.mp hs
    cases n with
    | zero =>
      obtain ⟨s₂, hs₂, hs₁⟩ := Option.bind_eq_some_iff.mp hs₁
      obtain ⟨s₃, hs₃, rfl⟩ := Option.map_eq_some_iff.mp hs₁
      have hnil : s₃.out = [] := finish_overflow (s := s₂.store d fg bg _) hover (h.flush hs₂).1 hs₃
      rw [← Option.some.inj hs]
      exact hnil
    | succ n => exact ih (by omega) (h.drawByte hs₁).1 hs

theorem drawImage_overflow (hover : 2 ^ 31 ≤ width.toNat * height.toNat) {chunks : List (List UInt8)}
    (hne : ∀ chunk ∈ chunks, chunk ≠ []) (h : Counted d s) (hout : s.out = [])
    (hs : drawImage d fg bg width height chunks s = some s') : s'.out = [] := by
  induction chunks generalizing s with
  | nil => exact Option.some.inj hs ▸ hout
  | cons chunk rest ih =>
    obtain ⟨s₁, hs₁, hs⟩ := Option.bind_eq_some_iff.mp hs
    have hlen : chunk.length ≠ 0 := by simpa using hne chunk List.mem_cons_self
    exact ih (fun c hc => hne c (List.mem_cons_of_mem _ hc)) (Counted.drawBytes (s := s.unpack d chunk) h hs₁).1
      (drawBytes_overflow (s := s.unpack d chunk) hover hlen h hs₁) hs

/-- The pixels of a first chunk of at most a line never get to the display. -/
theorem drawImage_short {chunk : List UInt8} {rest : List (List UInt8)} (hne : chunk ≠ []) (hshort : 8 * chunk.length ≤ d.width)
    {buf : Buf} (hs : drawImage d fg bg width height (chunk :: rest) { buf := buf } = some s') :
    s'.out.length < 8 * (chunk :: rest).flatten.length * d.colorSize := by
  obtain ⟨s₁, hs₁, hpp, hpos, hout⟩ := drawBytes_short fg bg width height 0
    (s := Image.unpack d chunk { buf := buf }) (n := chunk.length) (by simpa [Image.unpack] using hshort) rfl
  rw [drawImage, drawChunk, hs₁, Option.bind_some] at hs
  have hnil : s₁.out = [] := hout
  have hle := Counted.drawImage (by rw [Counted, hpos, hnil]; simp) hpp hs
  have hlen : 0 < chunk.length := List.length_pos_iff.mpr hne
  rw [hnil, List.length_nil, Nat.zero_add] at hle
  refine Nat.lt_of_le_of_lt hle (Nat.mul_lt_mul_of_pos_right ?_ d.colorSize_pos)
  rw [List.flatten_cons, List.length_append]
  omega

/-- **Images are drawn whole**: the colours passed to `ll_blit` are those of the image, and only the line is stored to,
if and only if the first chunk has more pixels than a display line and the number of pixels is an `int`. -/
theorem image_drawn_whole (d : Display) (fg bg : d.Color) (width height : UInt16) (mem : Nat → UInt8)
    (chunks : List (List UInt8)) (hwidth : 8 ∣ width.toNat) (hne : ∀ chunk ∈ chunks, chunk ≠ [] ∧ chunk.length ≤ maxSize)
    (hsize : chunks.flatten.length = width.toNat * height.toNat / 8) :
    (∃ s, drawImage d fg bg width height chunks { buf := ⟨mem, []⟩ } = some s ∧
      s.out = pixels d fg bg chunks.flatten ∧ s.out.length = width.toNat * height.toNat * d.colorSize ∧
      ∀ q ∈ s.buf.touched, q < d.width * d.colorSize) ↔
    (∀ chunk ∈ chunks.head?, d.width < 8 * chunk.length) ∧ width.toNat * height.toNat < 2 ^ 31 := by
  have hbytes : 8 * chunks.flatten.length = width.toNat * height.toNat := by
    rw [hsize, Nat.mul_div_cancel' (Nat.dvd_mul_right_of_dvd hwidth height.toNat)]
  constructor
  · rintro ⟨s, hs, -, hlen, -⟩
    rw [← hbytes] at hlen ⊢
    constructor
    · intro chunk hchunk
      by_contra hshort
      obtain ⟨rest, rfl⟩ := List.head?_eq_some_iff.mp hchunk
      have hlt := drawImage_short (hne chunk List.mem_cons_self).1 (Nat.not_lt.mp hshort) hs
      omega
    · by_contra hover
      rw [hbytes] at hover
      have hout := drawImage_overflow (s := { buf := ⟨mem, []⟩ }) (Nat.not_lt.mp hover) (fun c hc => (hne c hc).1)
        (by simp [Counted]) rfl hs
      rw [hout, hbytes, List.length_nil] at hlen
      have hpos : 0 < width.toNat * height.toNat * d.colorSize := Nat.mul_pos (by omega) d.colorSize_pos
      omega
  · rintro ⟨hfirst, hint⟩
    have hstart : Shown fg bg [] [] { buf := ⟨mem, []⟩ } :=
      ⟨by simp [slice, pixels], Nat.zero_le _, Nat.dvd_zero _, by simp, rfl, fun q hq => by cases hq⟩
    obtain ⟨s, chunk, hs, h, hpp⟩ := hstart.drawImage hint (fun c hc => (hne c hc).1) rfl hfirst (Nat.le_of_eq hbytes)
    have hout : s.out = pixels d fg bg chunks.flatten := by simpa [hpp, slice] using h.shown
    exact ⟨s, hs, hout, by rw [hout, length_pixels, hbytes], h.inside⟩

/-- A display of 16 bits a pixel. -/
def panel (width : Nat) (whole : 8 ∣ width) (wide : 8 ≤ width) : Display where
  width := width
  colorSize := 2
  rbuf := width + 128
  sizes := .inl rfl
  whole := whole
  wide := wide
  room := Nat.le_refl _

/-- Two lines of eight pixels, in one chunk. -/
theorem square_drawn_whole : ∃ s, drawImage (panel 8 (by decide) (by decide)) #v[255, 255] #v[0, 0] 8 2 [[0x80, 0x01]]
      { buf := ⟨fun _ => 0, []⟩ } = some s ∧
    s.out = pixels (panel 8 (by decide) (by decide)) #v[255, 255] #v[0, 0] [0x80, 0x01] ∧ s.out.length = 32 ∧
    ∀ q ∈ s.buf.touched, q < 16 :=
  (image_drawn_whole (panel 8 (by decide) (by decide)) #v[255, 255] #v[0, 0] 8 2 (fun _ => 0) [[0x80, 0x01]] (by decide)
    (by decide) (by decide)).mpr (by decide)

/-- An image of one line that is not wider than the display is not drawn at all. -/
theorem line_not_drawn :
    (drawImage (panel 16 (by decide) (by decide)) #v[255, 255] #v[0, 0] 8 1 [[0x80]] { buf := ⟨fun _ => 0, []⟩ }).map
      (fun s => s.out) = some [] := by
  decide

end Isix.Gdi
