import Mathlib.Algebra.Group.Nat.Defs
import Mathlib.Data.List.Range

/-!
# Isix.Gdi

Characters of libgfx (`gdi::draw_text`).  Rows of pixels are put into the render
buffer of the display, and the buffer is passed on whenever a block of rows is
complete.  `α` is the type of a colour; a store outside the buffer and a read
outside a table of the font give `none`.
-/

namespace Isix.Gdi

variable {α : Type}

/-- Stores `f col`, … to `n` places of the buffer from `pos` on. -/
def stores (f : Nat → α) : Nat → Nat → Nat → List α → Option (List α)
  | 0, _, _, buf => some buf
  | n + 1, col, pos, buf =>
    if pos < buf.length then stores f n (col + 1) (pos + 1) (buf.set pos (f col)) else none

theorem stores_spec (f : Nat → α) (n col pos : Nat) (buf : List α) (h : pos + n ≤ buf.length) :
    ∃ buf', stores f n col pos buf = some buf' ∧ buf'.length = buf.length ∧
      (∀ k < n, buf'[pos + k]? = some (f (col + k))) ∧ ∀ k < pos, buf'[k]? = buf[k]? := by
  induction n generalizing col pos buf with
  | zero => exact ⟨buf, rfl, rfl, by simp, fun _ _ => rfl⟩
  | succ n ih =>
    obtain ⟨buf', hs, hlen, hnew, hold⟩ := ih (col + 1) (pos + 1) (buf.set pos (f col)) (by
      rw [List.length_set]
      omega)
    refine ⟨buf', ?_, by rw [hlen, List.length_set], ?_, ?_⟩
    · rw [stores, if_pos (by omega), hs]
    · intro k hk
      cases k with
      | zero => rw [Nat.add_zero, hold pos (by omega), List.getElem?_set_self (by omega), Nat.add_zero]
      | succ k => rw [show pos + (k + 1) = pos + 1 + k by omega, hnew k (by omega), Nat.add_right_comm, Nat.add_assoc]
    · intro k hk
      rw [hold k (by omega), List.getElem?_set_ne (by omega)]

/-! ## characters -/

/-- `font_t`; an entry of the tables belongs to each of the `size` characters from `firstchar` on. -/
structure Font where
  maxwidth : Nat
  height : Nat
  firstchar : Int
  size : Nat
  bits : List UInt16
  offset : List Nat
  width : Option (List Nat)
  defaultchar : Int
  tall : 0 < height
  offsets : offset.length = size
  widths : ∀ t ∈ width, t.length = size
  glyphs : ∀ o ∈ offset, o + height ≤ bits.length
  narrow : ∀ w ∈ width.getD [maxwidth], 1 ≤ w ∧ w ≤ 16

def entry {β : Type} (t : List β) (i : Int) : Option β := if i < 0 then none else t[i.toNat]?

/-- `(m_font->width)?(m_font->width[ch]):(m_font->maxwidth)` -/
def Font.widthAt (f : Font) (ch : Int) : Option Nat :=
  match f.width with
  | some t => entry t ch
  | none => some f.maxwidth

/-- `blit( x, y, cx, cy, 0, buf )` -/
structure Blit (α : Type) where
  x : Nat
  y : Nat
  cx : Nat
  cy : Nat
  buf : List α

/-- The rows of the display a blit changes, with their pixels. -/
def Blit.rows (b : Blit α) : List (Nat × Nat × List (Option α)) :=
  (List.range b.cy).map fun r => (b.x, b.y + r, (List.range b.cx).map fun c => b.buf[r * b.cx + c]?)

/-- `bits[col]?m_color:m_bg_color` -/
def pixel (fg bg : α) (word : UInt16) (col : Nat) : α := if word.toNat.testBit (15 - col) then fg else bg

structure Loop (α : Type) where
  row : Nat := 0
  bi : Nat := 0
  cy : Nat := 0
  rows : Nat
  buf : List α
  blits : List (Blit α) := []

section

variable (fg bg : α) (f : Font) (x y : Nat)

/-- One turn of the loop over the rows. -/
def drawRow (width bmpch inBuf : Nat) (l : Loop α) : Option (Loop α) :=
  (f.bits[bmpch + l.row]?).bind fun word =>
    (stores (pixel fg bg word) width 0 l.bi l.buf).map fun buf =>
      if l.cy + l.rows ≤ l.row + 1 then
        { row := l.row + 1
          cy := (l.cy + l.rows) % 2 ^ 16
          rows := if f.height - l.row < inBuf then f.height - l.row else inBuf
          buf := buf
          blits := l.blits ++ [⟨x, (l.cy + y) % 2 ^ 16, width, l.rows, buf⟩] }
      else { l with row := l.row + 1, bi := l.bi + width, buf := buf }

def drawRows (width bmpch inBuf : Nat) : Nat → Loop α → Option (Loop α)
  | 0, l => some l
  | n + 1, l => (drawRow fg bg f x y width bmpch inBuf l).bind (drawRows width bmpch inBuf n)

/-- `gdi::draw_text` of a character, with the new position and the blits it makes -/
def drawText (dispWidth : Nat) (buf : List α) (ch : Int) : Option (Nat × List (Blit α)) :=
  let ch := if ch < f.firstchar ∨ f.size ≤ ch then f.defaultchar else ch
  (f.widthAt ch).bind fun width =>
    if dispWidth < x + width then some (x, [])
    else
      (entry f.offset (ch - f.firstchar)).bind fun bmpch =>
        let inBuf := buf.length / width
        let rows := if f.height < inBuf then f.height else inBuf
        (drawRows fg bg f x y width bmpch inBuf f.height { rows := rows, buf := buf }).map fun l =>
          ((x + width) % 2 ^ 16, l.blits)

end

namespace Font

variable (f : Font)

/-- The font has an entry for `c`. -/
def Has (c : Int) : Prop := f.firstchar ≤ c ∧ c < f.firstchar + f.size

instance (c : Int) : Decidable (f.Has c) := inferInstanceAs (Decidable (_ ∧ _))

/-- The character that stands for `ch`. -/
def glyph (ch : Int) : Int := if f.Has ch then ch else f.defaultchar

/-- The character that is taken for `ch`: the end of the font is compared with its size. -/
def taken (ch : Int) : Int := if ch < f.firstchar ∨ f.size ≤ ch then f.defaultchar else ch

def glyphWidth (c : Int) : Nat := (f.widthAt (c - f.firstchar)).getD 0

/-- The bits of a row of a character. -/
def word (c : Int) (row : Nat) : UInt16 :=
  ((entry f.offset (c - f.firstchar)).bind fun o => f.bits[o + row]?).getD 0

/-- A row of a character on the display, `w` pixels wide. -/
def drawn (fg bg : α) (x y : Nat) (c : Int) (w row : Nat) : Nat × Nat × List (Option α) :=
  (x, y + row, (List.range w).map fun col => some (pixel fg bg (f.word c row) col))

/-- `c` has the pixels of `g` in its place, and the width of `g` stands at the index `c`. -/
def Alike (fg bg : α) (c g : Int) : Prop :=
  f.widthAt c = some (f.glyphWidth g) ∧ ∀ row < f.height, ∀ col < f.glyphWidth g,
    pixel fg bg (f.word c row) col = pixel fg bg (f.word g row) col

end Font

/-- The rows before `l.row` are on the display or in the buffer, in blocks of `b` rows; when less than a block is
left, the number of rows to wait for is never reached. -/
structure Drawing (fg bg : α) (f : Font) (x y : Nat) (c : Int) (w b n : Nat) (l : Loop α) : Prop where
  block : b ∣ l.cy
  lower : l.cy ≤ l.row
  upper : l.row < l.cy + b
  rows : l.row < f.height → if l.cy + b ≤ f.height then l.rows = b else f.height < l.cy + l.rows
  bi : l.bi = (l.row - l.cy) * w
  length : l.buf.length = n
  kept : ∀ r < l.row - l.cy, ∀ k < w, l.buf[r * w + k]? = some (pixel fg bg (f.word c (l.cy + r)) k)
  blits : l.blits.flatMap Blit.rows = (List.range l.cy).map (f.drawn fg bg x y c w)

namespace Drawing

variable {fg bg : α} {f : Font} {x y : Nat} {c : Int} {w b n inBuf o : Nat} {l : Loop α}

section

variable (h : Drawing fg bg f x y c w b n l)

include h

/-- A row is stored behind those of its block. -/
theorem stored {buf : List α} (hnew : ∀ k < w, buf[l.bi + k]? = some (pixel fg bg (f.word c l.row) k))
    (hold : ∀ k < l.bi, buf[k]? = l.buf[k]?) :
    ∀ r < l.row + 1 - l.cy, ∀ k < w, buf[r * w + k]? = some (pixel fg bg (f.word c (l.cy + r)) k) := by
  have hlower := h.lower
  intro r hr k hk
  by_cases hlast : r = l.row - l.cy
  · rw [hlast, ← h.bi, hnew k hk, Nat.add_sub_cancel' hlower]
  · have hlt : r < l.row - l.cy := by omega
    have hin : r * w + k < l.bi := by
      rw [h.bi]
      exact Nat.lt_of_lt_of_le (by rw [Nat.succ_mul]; omega) (Nat.mul_le_mul_right _ hlt)
    rw [hold _ hin, h.kept r hlt k hk]

/-- A full block goes to the display. -/
theorem flushed {buf : List α}
    (hbuf : ∀ r < b, ∀ k < w, buf[r * w + k]? = some (pixel fg bg (f.word c (l.cy + r)) k)) :
    (l.blits ++ [Blit.mk x (l.cy + y) w b buf]).flatMap Blit.rows =
      (List.range (l.cy + b)).map (f.drawn fg bg x y c w) := by
  rw [List.flatMap_append, h.blits, List.range_add, List.map_append, List.flatMap_singleton, List.map_map]
  congr 1
  apply List.map_congr_left
  intro r hr
  simp only [Font.drawn, Function.comp_apply, Prod.mk.injEq, true_and]
  refine ⟨by omega, List.map_congr_left fun k hk => hbuf r (List.mem_range.mp hr) k (List.mem_range.mp hk)⟩

theorem drawRow (hrow : l.row < f.height) (hy : y + f.height < 2 ^ 16) (hb : b = min f.height inBuf)
    (hn : inBuf * w ≤ n) (ho : entry f.offset (c - f.firstchar) = some o) (hbits : o + f.height ≤ f.bits.length) :
    ∃ l', Gdi.drawRow fg bg f x y w o inBuf l = some l' ∧ l'.row = l.row + 1 ∧ Drawing fg bg f x y c w b n l' := by
  have hlower := h.lower
  have hupper := h.upper
  have hlt : o + l.row < f.bits.length := by omega
  have hword : f.word c l.row = f.bits[o + l.row] := by simp [Font.word, ho, hlt]
  have hspace : l.bi + w ≤ l.buf.length := by
    rw [h.bi, h.length, ← Nat.succ_mul]
    exact Nat.le_trans (Nat.mul_le_mul_right _ (by omega)) hn
  obtain ⟨buf, hs, hlen, hnew, hold⟩ := stores_spec (pixel fg bg f.bits[o + l.row]) w 0 l.bi l.buf hspace
  have hkept := h.stored (by simpa [hword] using hnew) hold
  simp only [Gdi.drawRow, List.getElem?_eq_getElem hlt, Option.bind_some, hs, Option.map_some]
  have hrows := h.rows hrow
  by_cases hfull : l.cy + b ≤ l.row + 1
  · rw [if_pos (by omega)] at hrows
    have hend : l.row + 1 = l.cy + b := by omega
    have hmod : (l.cy + b) % 2 ^ 16 = l.cy + b := Nat.mod_eq_of_lt (by omega)
    have hmod' : (l.cy + y) % 2 ^ 16 = l.cy + y := Nat.mod_eq_of_lt (by omega)
    rw [hrows, if_pos hfull]
    refine ⟨_, rfl, rfl, ?_⟩
    rw [hmod, hmod', hend]
    refine ⟨Nat.dvd_add_self_right.mpr h.block, le_rfl, by dsimp only; omega, ?_, by simp, hlen.trans h.length, by simp, ?_⟩
    · intro hmore
      dsimp only at hmore ⊢
      split <;> split <;> omega
    · exact h.flushed fun r hr => hkept r (by omega)
  · rw [if_neg (by split at hrows <;> omega)]
    refine ⟨_, rfl, rfl, h.block, by simp; omega, by simp; omega, fun _ => hrows, ?_, hlen.trans h.length, hkept,
      h.blits⟩
    rw [h.bi, ← Nat.succ_mul, Nat.succ_sub hlower]

end

theorem drawRows (hy : y + f.height < 2 ^ 16) (hb : b = min f.height inBuf)
    (hn : inBuf * w ≤ n) (ho : entry f.offset (c - f.firstchar) = some o)
    (hbits : o + f.height ≤ f.bits.length) (k : Nat) (hk : l.row + k = f.height) (h : Drawing fg bg f x y c w b n l) :
    ∃ l', Gdi.drawRows fg bg f x y w o inBuf k l = some l' ∧ l'.row = f.height ∧
      Drawing fg bg f x y c w b n l' := by
  induction k generalizing l with
  | zero => exact ⟨l, rfl, hk, h⟩
  | succ k ih =>
    obtain ⟨l₁, hs, hrow, h₁⟩ := h.drawRow (by omega) hy hb hn ho hbits
    obtain ⟨l₂, hs₂, hrow₂, h₂⟩ := ih (by omega) h₁
    exact ⟨l₂, by rw [Gdi.drawRows, hs, Option.bind_some, hs₂], hrow₂, h₂⟩

/-- At the end less than a block is left in the buffer: no row if whole blocks make up the character. -/
theorem finished (h : Drawing fg bg f x y c w b n l) (hrow : l.row = f.height) : l.cy = f.height ↔ b ∣ f.height := by
  have hlower := h.lower
  have hupper := h.upper
  constructor
  · intro he
    exact he ▸ h.block
  · intro hdvd
    have hrest : f.height - l.cy = 0 := Nat.eq_zero_of_dvd_of_lt (Nat.dvd_sub hdvd h.block) (by omega)
    omega

end Drawing

theorem entry_mem {β : Type} {t : List β} {i : Int} {v : β} (h : entry t i = some v) : v ∈ t := by
  unfold entry at h
  split at h
  · cases h
  · exact List.mem_of_getElem? h

theorem entry_isSome {β : Type} {t : List β} {i : Int} : (∃ v, entry t i = some v) ↔ 0 ≤ i ∧ i < t.length := by
  unfold entry
  split
  · simp
    omega
  · rw [← Option.isSome_iff_exists, isSome_getElem?]
    omega

namespace Font

variable {f : Font} {c : Int} {fg bg : α} {x y : Nat}

theorem offset_iff : (∃ o, entry f.offset (c - f.firstchar) = some o) ↔ f.Has c := by
  rw [entry_isSome, f.offsets]
  unfold Has
  omega

/-- What a table of widths or the fixed width gives is a width. -/
theorem widthAt_mem {w : Nat} (h : f.widthAt c = some w) : w ∈ f.width.getD [f.maxwidth] := by
  unfold widthAt at h
  cases hw : f.width with
  | none =>
    rw [hw] at h
    simp [Option.some.inj h]
  | some t =>
    rw [hw] at h
    exact entry_mem h

/-- Rows of pixels are those of another character if it looks the same. -/
theorem drawn_inj {g : Int} {n w w' : Nat} (hn : 0 < n)
    (h : (List.range n).map (f.drawn fg bg x y c w) = (List.range f.height).map (f.drawn fg bg x y g w')) :
    n = f.height ∧ w = w' ∧ ∀ row < f.height, ∀ col < w', pixel fg bg (f.word c row) col = pixel fg bg (f.word g row) col := by
  have hlen : n = f.height := by simpa using congrArg List.length h
  subst hlen
  have hrow : ∀ row < f.height, f.drawn fg bg x y c w row = f.drawn fg bg x y g w' row := fun row hlt =>
    List.map_inj_left.mp h row (List.mem_range.mpr hlt)
  have hw : w = w' := by simpa [drawn] using congrArg (fun r => r.2.2.length) (hrow 0 hn)
  subst hw
  refine ⟨rfl, rfl, fun row hlt col hcol => ?_⟩
  have hpix := congrArg (fun r => r.2.2) (hrow row hlt)
  exact Option.some.inj (List.map_inj_left.mp hpix col (List.mem_range.mpr hcol))

end Font

section

variable {fg bg : α} {f : Font} {x y dispWidth : Nat} {buf : List α} {ch : Int}

/-- What is drawn of the character that is taken, in the width that is read for it. -/
theorem drawText_taken (fg bg : α) {w : Nat} (hw : f.widthAt (f.taken ch) = some w)
    (hbuf : ∀ w ∈ f.width.getD [f.maxwidth], w ≤ buf.length)
    (hx : x + w ≤ dispWidth) (hy : y + f.height < 2 ^ 16) (hhas : f.Has (f.taken ch)) :
    ∃ n blits, drawText fg bg f x y dispWidth buf ch = some ((x + w) % 2 ^ 16, blits) ∧
      blits.flatMap Blit.rows = (List.range n).map (f.drawn fg bg x y (f.taken ch) w) ∧
      (n = f.height ↔ f.height ≤ buf.length / w ∨ buf.length / w ∣ f.height) := by
  have htall := f.tall
  have hmem := Font.widthAt_mem hw
  obtain ⟨o, ho⟩ := Font.offset_iff.mpr hhas
  have hpos : 0 < buf.length / w := Nat.div_pos (hbuf _ hmem) (f.narrow _ hmem).1
  have hmin : (if f.height < buf.length / w then f.height else buf.length / w) = min f.height (buf.length / w) := by
    split <;> omega
  have hstart : Drawing fg bg f x y (f.taken ch) w (min f.height (buf.length / w)) buf.length
      { rows := min f.height (buf.length / w), buf := buf } :=
    ⟨Nat.dvd_zero _, le_rfl, by dsimp only; omega, fun _ => by dsimp only; split <;> omega, by simp, rfl, by simp, by simp⟩
  obtain ⟨l, hl, hrow, h⟩ := Drawing.drawRows hy rfl (Nat.div_mul_le_self _ _) ho (f.glyphs o (entry_mem ho))
    f.height (Nat.zero_add _) hstart
  have hdvd : min f.height (buf.length / w) ∣ f.height ↔ f.height ≤ buf.length / w ∨ buf.length / w ∣ f.height := by
    rcases Nat.le_total f.height (buf.length / w) with hle | hle
    · simp [hle]
    · rw [Nat.min_eq_right hle]
      exact ⟨.inr, fun hor => hor.elim (fun h => Nat.le_antisymm hle h ▸ Nat.dvd_refl _) id⟩
  refine ⟨l.cy, l.blits, ?_, h.blits, (h.finished hrow).trans hdvd⟩
  unfold drawText
  rw [← Font.taken]
  simp only [hw, Option.bind_some, if_neg (Nat.not_lt.mpr hx), ho, hmin, hl, Option.map_some]

/-- Something is drawn of a character of the font only, and where its width fits. -/
theorem drawText_some {r : Nat × List (Blit α)} (h : drawText fg bg f x y dispWidth buf ch = some r) (hne : r.2 ≠ []) :
    ∃ w, f.widthAt (f.taken ch) = some w ∧ x + w ≤ dispWidth ∧ f.Has (f.taken ch) := by
  unfold drawText at h
  rw [← Font.taken] at h
  obtain ⟨w, hw, h⟩ := Option.bind_eq_some_iff.mp h
  split at h
  · rw [← Option.some.inj h] at hne
    exact absurd rfl hne
  · obtain ⟨o, ho, -⟩ := Option.bind_eq_some_iff.mp h
    exact ⟨w, hw, by omega, Font.offset_iff.mp ⟨o, ho⟩⟩

end

/-- **Every row is drawn**: `draw_text` blits each row of the character that stands for `ch` once, with its pixels, and
stays inside the buffer and the tables, if and only if the character that is taken is one of the font, looks like it in
the width that is read, and the buffer has room for all the rows or for a number that divides the height. -/
theorem every_row_drawn (fg bg : α) (f : Font) (x y dispWidth : Nat) (buf : List α) (ch : Int)
    (hbuf : ∀ w ∈ f.width.getD [f.maxwidth], w ≤ buf.length)
    (hx : x + f.glyphWidth (f.glyph ch) ≤ dispWidth) (hy : y + f.height < 2 ^ 16) :
    (∃ blits, drawText fg bg f x y dispWidth buf ch = some ((x + f.glyphWidth (f.glyph ch)) % 2 ^ 16, blits) ∧
      blits.flatMap Blit.rows =
        (List.range f.height).map (f.drawn fg bg x y (f.glyph ch) (f.glyphWidth (f.glyph ch)))) ↔
    f.Has (f.taken ch) ∧ f.Alike fg bg (f.taken ch) (f.glyph ch) ∧
      (f.height ≤ buf.length / f.glyphWidth (f.glyph ch) ∨ buf.length / f.glyphWidth (f.glyph ch) ∣ f.height) := by
  have htall := f.tall
  constructor
  · rintro ⟨blits, hdraw, hrows⟩
    have hne : blits ≠ [] := by
      rintro rfl
      have := congrArg List.length hrows
      simp at this
      omega
    obtain ⟨w, hw, hfit, hhas⟩ := drawText_some hdraw hne
    obtain ⟨n, blits', hdraw', hrows', hn⟩ := drawText_taken fg bg hw hbuf hfit hy hhas
    rw [hdraw] at hdraw'
    obtain rfl := (Prod.mk.inj (Option.some.inj hdraw')).2
    rw [hrows] at hrows'
    have hpos : 0 < n := by
      have := congrArg List.length hrows'
      simp at this
      omega
    obtain ⟨hall, rfl, halike⟩ := Font.drawn_inj hpos hrows'.symm
    exact ⟨hhas, ⟨hw, halike⟩, hn.mp hall⟩
  · rintro ⟨hhas, ⟨hw, halike⟩, hblocks⟩
    obtain ⟨n, blits, hdraw, hrows, hn⟩ := drawText_taken fg bg hw hbuf hx hy hhas
    refine ⟨blits, hdraw, ?_⟩
    rw [hrows, hn.mpr hblocks]
    refine List.map_congr_left fun row hrow => ?_
    unfold Font.drawn
    rw [List.map_congr_left fun col hcol =>
      congrArg some (halike row (List.mem_range.mp hrow) col (List.mem_range.mp hcol))]

/-- A font with one character, two pixels wide and `height` rows high. -/
def ruler (height : Nat) (h : 0 < height) : Font where
  maxwidth := 2
  height := height
  firstchar := 0
  size := 1
  bits := List.replicate height 0x8000
  offset := [0]
  width := none
  defaultchar := 0
  tall := h
  offsets := rfl
  widths := by simp
  glyphs := by simp
  narrow := by simp

/-- Two rows, one in the buffer. -/
theorem every_row_of_ruler :
    ∃ blits, drawText 1 0 (ruler 2 (by decide)) 3 4 320 [0, 0, 0] 0 = some (5, blits) ∧
      blits.flatMap Blit.rows = [(3, 4, [some 1, some 0]), (3, 5, [some 1, some 0])] :=
  (every_row_drawn 1 0 (ruler 2 (by decide)) 3 4 320 [0, 0, 0] 0 (by decide) (by decide) (by decide)).mpr
    ⟨by decide, ⟨by decide, by decide⟩, by decide⟩

/-- Three rows, two in the buffer: the last one is not drawn. -/
theorem last_row_missing :
    (drawText 1 0 (ruler 3 (by decide)) 0 0 320 [0, 0, 0, 0] 0).map (fun r => r.2.flatMap Blit.rows) =
      some [(0, 0, [some 1, some 0]), (0, 1, [some 1, some 0])] := by
  decide

end Isix.Gdi
