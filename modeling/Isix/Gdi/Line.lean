import Mathlib.Algebra.Order.Ring.Int
import Mathlib.Data.List.Range
import Mathlib.Tactic.Ring

/-!
# Isix.Gdi.Line

Lines of libgfx (`gdi::draw_line`).  A horizontal or vertical line is an area to
fill; for the others a loop runs along the longer axis, and its accumulator
tells when the other coordinate changes.  Coordinates are 16 bits wide.
-/

namespace Isix.Gdi

abbrev Pixel := UInt16 × UInt16

/-- The pixels `disp_base::fill` colours. -/
def fill (x y cx cy : UInt16) : List Pixel :=
  (List.range cy.toNat).flatMap fun r => (List.range cx.toNat).map fun c =>
    (x + UInt16.ofNat c, y + UInt16.ofNat r)

/-- `addx`, `addy` -/
def add (a b : UInt16) : UInt16 := if a ≤ b then 1 else -1

/-- `dx`, `dy` -/
def delta (a b : UInt16) : Nat := if a ≤ b then b.toNat - a.toNat else a.toNat - b.toNat

/-- The loop of `draw_line`: `u` is the coordinate on the longer axis, and the
other one, `v`, follows when `p` is not negative. -/
def lineLoop (addu addv : UInt16) (twice diff : Int) : Nat → Int → UInt16 → UInt16 → List Pixel
  | 0, _, _, _ => []
  | n + 1, p, u, v =>
    (u, v) ::
      if p < 0 then lineLoop addu addv twice diff n (p + twice) (u + addu) v
      else lineLoop addu addv twice diff n (p + diff) (u + addu) (v + addv)

/-- The part of `draw_line` for one of the axes. -/
def drawAlong (u0 v0 u1 v1 : UInt16) : List Pixel :=
  let du : Int := delta u0 u1
  let dv : Int := delta v0 v1 * 2
  let p := dv - du
  lineLoop (add u0 u1) (add v0 v1) dv (p - du) (delta u0 u1 + 1) p u0 v0

/-- `gdi::draw_line`: the pixels coloured -/
def drawLine (x0 y0 x1 y1 : UInt16) : List Pixel :=
  if x0 = x1 then
    if y0 < y1 then fill x0 y0 1 (y1 - y0 + 1) else fill x0 y1 1 (y0 - y1 + 1)
  else if y0 = y1 then
    if x0 < x1 then fill x0 y0 (x1 - x0 + 1) 1 else fill x1 y1 (x0 - x1 + 1) 1
  else if delta y0 y1 ≤ delta x0 x1 then drawAlong x0 y0 x1 y1
  else (drawAlong y0 x0 y1 x1).map Prod.swap

/-! ## the rule -/

/-- The minor coordinate at step `i`: `i * minor / major + 1 / 2`, rounded down. -/
def rounded (major minor i : Nat) : Nat := (2 * i * minor + major) / (2 * major)

/-- `k` steps from `a` towards `b` -/
def toward (a b : UInt16) (k : Nat) : Nat := if a ≤ b then a.toNat + k else a.toNat - k

/-- The pixel at step `i` of a line along its longer axis. -/
def onAxis (u0 v0 u1 v1 : UInt16) (i : Nat) : Nat × Nat :=
  (toward u0 u1 i, toward v0 v1 (rounded (delta u0 u1) (delta v0 v1) i))

def onLine (x0 y0 x1 y1 : UInt16) (i : Nat) : Nat × Nat :=
  if delta y0 y1 ≤ delta x0 x1 then onAxis x0 y0 x1 y1 i else (onAxis y0 x0 y1 x1 i).swap

/-- The steps along the longer axis. -/
def steps (x0 y0 x1 y1 : UInt16) : Nat := max (delta x0 x1) (delta y0 y1)

variable {major minor i : Nat}

theorem rounded_zero (major minor : Nat) : rounded major minor 0 = 0 := by
  rcases Nat.eq_zero_or_pos major with rfl | h
  · simp [rounded]
  · rw [rounded, Nat.div_eq_of_lt (by omega)]

/-- A quotient goes up by at most one. -/
theorem add_div_cases {a d m : Nat} (hm : 0 < m) (hd : d ≤ m) :
    (a + d) / m = if a + d < m * (a / m) + m then a / m else a / m + 1 := by
  have hdiv := Nat.div_add_mod a m
  have hlt := Nat.mod_lt a hm
  have hcomm := Nat.mul_comm (a / m) m
  split
  · exact Nat.div_eq_of_lt_le (by omega) (by rw [Nat.add_mul]; omega)
  · exact Nat.div_eq_of_lt_le (by rw [Nat.add_mul]; omega) (by rw [Nat.add_mul, Nat.add_mul]; omega)

/-- The value of the accumulator in round `i`. -/
def acc (major minor i : Nat) : Int := 2 * minor * (i + 1) - major * (2 * rounded major minor i + 1)

theorem rounded_succ (hle : minor ≤ major) (hpos : 0 < major) : rounded major minor (i + 1) =
    if acc major minor i < 0 then rounded major minor i else rounded major minor i + 1 := by
  have hnext : 2 * (i + 1) * minor + major = 2 * i * minor + major + 2 * minor := by ring
  have hacc : acc major minor i < 0 ↔
      2 * i * minor + major + 2 * minor < 2 * major * rounded major minor i + 2 * major := by
    have hl : (2 * minor * (i + 1) : Int) = (2 * i * minor + 2 * minor : Nat) := by push_cast; ring
    have hr : (major * (2 * rounded major minor i + 1) : Int) = (2 * major * rounded major minor i + major : Nat) := by
      push_cast; ring
    rw [acc, hl, hr]
    omega
  simp only [hacc]
  rw [rounded, hnext, add_div_cases (by omega) (by omega)]
  rfl

theorem acc_succ (hle : minor ≤ major) (hpos : 0 < major) : acc major minor (i + 1) =
    acc major minor i + (if acc major minor i < 0 then minor * 2 else minor * 2 - major - major : Int) := by
  rw [acc, rounded_succ hle hpos]
  split <;> simp only [acc] <;> push_cast <;> ring

/-- The loop draws the rounds from `i` on. -/
theorem lineLoop_eq (addu addv u v : UInt16) (hle : minor ≤ major) (hpos : 0 < major) (n i : Nat) :
    lineLoop addu addv (minor * 2) (minor * 2 - major - major) n (acc major minor i) ((· + addu)^[i] u)
      ((· + addv)^[rounded major minor i] v) =
    (List.range' i n).map fun i => ((· + addu)^[i] u, (· + addv)^[rounded major minor i] v) := by
  induction n generalizing i with
  | zero => rfl
  | succ n ih =>
    rw [lineLoop, List.range'_succ, List.map_cons, ← ih, acc_succ hle hpos, rounded_succ hle hpos]
    congr 1
    split <;> simp [Function.iterate_succ_apply']

/-! ## the pixels of a line -/

variable {a b x0 y0 x1 y1 u0 v0 u1 v1 : UInt16} {k : Nat}

def Pixel.toNat (p : Pixel) : Nat × Nat := (p.1.toNat, p.2.toNat)

/-- Up to the end point the coordinates do not wrap. -/
theorem iterate_add (hk : k ≤ delta a b) : ((· + add a b)^[k] a).toNat = toward a b k := by
  have ha := a.toNat_lt
  have hb := b.toNat_lt
  unfold delta add toward at *
  induction k with
  | zero => simp
  | succ k ih =>
    rw [Function.iterate_succ_apply', UInt16.toNat_add, ih (by omega)]
    split <;> simp_all [UInt16.le_iff_toNat_le] <;> omega

theorem rounded_le (hle : minor ≤ major) (hi : i ≤ major) : rounded major minor i ≤ minor := by
  rcases Nat.eq_zero_or_pos major with rfl | hpos
  · simp [rounded]
  · have hmul := Nat.mul_le_mul_right (2 * minor) hi
    have hl : 2 * i * minor = i * (2 * minor) := by ring
    have hr : (minor + 1) * (2 * major) = major * (2 * minor) + 2 * major := by ring
    rw [rounded, ← Nat.lt_succ_iff, Nat.div_lt_iff_lt_mul (by omega), Nat.succ_eq_add_one, hl, hr]
    omega

theorem drawAlong_eq (hle : delta v0 v1 ≤ delta u0 u1) (hpos : 0 < delta u0 u1) :
    (drawAlong u0 v0 u1 v1).map Pixel.toNat = (List.range (delta u0 u1 + 1)).map (onAxis u0 v0 u1 v1) := by
  have hacc : acc (delta u0 u1) (delta v0 v1) 0 = delta v0 v1 * 2 - delta u0 u1 := by
    rw [acc, rounded_zero]
    ring
  have h := lineLoop_eq (add u0 u1) (add v0 v1) u0 v0 hle hpos (delta u0 u1 + 1) 0
  rw [hacc, rounded_zero] at h
  unfold drawAlong
  rw [show lineLoop _ _ _ _ _ _ u0 v0 = _ from h, List.map_map, List.range_eq_range']
  refine List.map_congr_left fun i hi => ?_
  have hi' : i ≤ delta u0 u1 := by
    simp at hi
    omega
  exact Prod.ext (iterate_add hi') (iterate_add (rounded_le hle hi'))

/-- The coordinates from the smaller end point on. -/
def span (a b : UInt16) : List UInt16 :=
  if a < b then (List.range (b - a + 1).toNat).map (a + UInt16.ofNat ·)
  else (List.range (a - b + 1).toNat).map (b + UInt16.ofNat ·)

theorem fill_column (x : UInt16) :
    (if a < b then fill x a 1 (b - a + 1) else fill x b 1 (a - b + 1)) = (span a b).map fun y => (x, y) := by
  unfold span fill
  split <;> simp [← List.map_eq_flatMap, Function.comp_def]

theorem fill_row (y : UInt16) :
    (if a < b then fill a y (b - a + 1) 1 else fill b y (a - b + 1) 1) = (span a b).map fun x => (x, y) := by
  unfold span fill
  split <;> simp

theorem toNat_range {n : Nat} (h : a.toNat + n ≤ 65536) :
    ((List.range n).map (a + UInt16.ofNat ·)).map UInt16.toNat = (List.range n).map (a.toNat + ·) := by
  rw [List.map_map]
  refine List.map_congr_left fun i hi => ?_
  have := List.mem_range.mp hi
  simp
  omega

/-- A length of `2 ^ 16` is taken for 0. -/
theorem span_whole (h : delta a b = 65535) : span a b = [] := by
  have ha := a.toNat_lt
  have hb := b.toNat_lt
  have hends : a = 0 ∧ b = 65535 ∨ a = 65535 ∧ b = 0 := by
    rw [← UInt16.toNat_inj, ← UInt16.toNat_inj, ← UInt16.toNat_inj, ← UInt16.toNat_inj]
    simp only [UInt16.reduceToNat]
    unfold delta at h
    split at h <;> omega
  rcases hends with ⟨rfl, rfl⟩ | ⟨rfl, rfl⟩ <;> rfl

theorem span_perm (h : delta a b < 65535) :
    ((span a b).map UInt16.toNat).Perm ((List.range (delta a b + 1)).map (toward a b)) := by
  have ha := a.toNat_lt
  have hb := b.toNat_lt
  unfold span
  split
  next hlt =>
    have hle := UInt16.le_of_lt hlt
    have hd : delta a b = b.toNat - a.toNat := if_pos hle
    have hn : (b - a + 1).toNat = delta a b + 1 := by
      rw [UInt16.toNat_add, UInt16.toNat_sub_of_le _ _ hle, UInt16.toNat_one]
      omega
    rw [hn, toNat_range (by omega)]
    refine .of_eq (List.map_congr_left fun i _ => ?_)
    rw [toward, if_pos hle]
  next hnot =>
    have hle : b ≤ a := UInt16.not_lt.mp hnot
    have hle' := UInt16.le_iff_toNat_le.mp hle
    have hd : delta a b = a.toNat - b.toNat := by
      unfold delta
      split
      next h' => rw [UInt16.le_antisymm h' hle]
      · rfl
    have hn : (a - b + 1).toNat = delta a b + 1 := by
      rw [UInt16.toNat_add, UInt16.toNat_sub_of_le _ _ hle, UInt16.toNat_one]
      omega
    rw [hn, toNat_range (by omega)]
    -- the same places from the other end
    refine (List.reverse_perm _).symm.trans (.of_eq ?_)
    rw [← List.map_reverse, List.range_eq_range', List.reverse_range', List.map_map, ← List.range_eq_range']
    refine List.map_congr_left fun i hi => ?_
    unfold toward
    split <;> simp_all [UInt16.le_iff_toNat_le] <;> omega

/-! ## the rule and its end points -/

theorem toward_self (a b : UInt16) : toward a b 0 = a.toNat := by
  unfold toward
  split <;> rfl

theorem toward_end (a b : UInt16) : toward a b (delta a b) = b.toNat := by
  unfold toward delta
  split <;> simp_all [UInt16.le_iff_toNat_le]
  omega

theorem rounded_end (hle : minor ≤ major) : rounded major minor major = minor := by
  rcases Nat.eq_zero_or_pos major with rfl | hpos
  · simp_all [rounded]
  rw [rounded, show 2 * major * minor + major = major + 2 * major * minor by omega,
    Nat.add_mul_div_left _ _ (by omega), Nat.div_eq_of_lt (by omega), Nat.zero_add]

theorem rounded_flat (major i : Nat) : rounded major 0 i = 0 := by
  rcases Nat.eq_zero_or_pos major with rfl | h
  · simp [rounded]
  · rw [rounded, Nat.mul_zero, Nat.div_eq_of_lt (by omega)]

theorem toward_inj {j : Nat} (hi : i ≤ delta a b) (hj : j ≤ delta a b) (h : toward a b i = toward a b j) : i = j := by
  unfold toward delta at *
  split at h <;> simp_all
  omega

theorem delta_self (a : UInt16) : delta a a = 0 := by simp [delta]

theorem delta_pos (h : a ≠ b) : 0 < delta a b := by
  have := mt UInt16.toNat_inj.mp h
  unfold delta
  split <;> simp_all [UInt16.le_iff_toNat_le]
  omega

theorem onLine_column (x : UInt16) (hi : i ≤ delta y0 y1) : onLine x y0 x y1 i = (x.toNat, toward y0 y1 i) := by
  unfold onLine onAxis
  rw [delta_self]
  split
  next h =>
    obtain rfl : i = 0 := by omega
    simp [rounded_zero, toward_self]
  · simp [rounded_flat, toward_self]

theorem onLine_row (y : UInt16) (i : Nat) : onLine x0 y x1 y i = (toward x0 x1 i, y.toNat) := by
  simp [onLine, onAxis, delta_self, rounded_flat, toward_self]

theorem delta_le (a b : UInt16) : delta a b ≤ 65535 := by
  have := a.toNat_lt
  have := b.toNat_lt
  unfold delta
  split <;> omega

theorem drawLine_perm (hx : ¬(x0 = x1 ∧ delta y0 y1 = 65535)) (hy : ¬(y0 = y1 ∧ delta x0 x1 = 65535)) :
    ((drawLine x0 y0 x1 y1).map Pixel.toNat).Perm
      ((List.range (max (delta x0 x1) (delta y0 y1) + 1)).map (onLine x0 y0 x1 y1)) := by
  unfold drawLine
  split
  next he =>
    subst he
    have hmap := (span_perm (lt_of_le_of_ne (delta_le y0 y1) fun h => hx ⟨rfl, h⟩)).map fun y => (x0.toNat, y)
    rw [fill_column, delta_self, Nat.zero_max, List.map_map]
    rw [List.map_map, List.map_map] at hmap
    refine hmap.trans (.of_eq (List.map_congr_left fun i hi => ?_))
    exact (onLine_column x0 (Nat.lt_succ_iff.mp (List.mem_range.mp hi))).symm
  split
  next he =>
    subst he
    have hmap := (span_perm (lt_of_le_of_ne (delta_le x0 x1) fun h => hy ⟨rfl, h⟩)).map fun x => (x, y0.toNat)
    rw [fill_row, delta_self, Nat.max_zero, List.map_map]
    rw [List.map_map, List.map_map] at hmap
    exact hmap.trans (.of_eq (List.map_congr_left fun i _ => (onLine_row y0 i).symm))
  next hxne hyne =>
  split
  next hle =>
    rw [drawAlong_eq hle (delta_pos hxne), max_eq_left hle]
    exact .of_eq (List.map_congr_left fun i _ => (if_pos hle).symm)
  next hlt =>
    have hle := (not_le.mp hlt).le
    rw [List.map_map, show Pixel.toNat ∘ Prod.swap = Prod.swap ∘ Pixel.toNat from rfl, ← List.map_map,
      drawAlong_eq hle (delta_pos hyne), max_eq_right hle, List.map_map]
    exact .of_eq (List.map_congr_left fun i _ => (if_neg hlt).symm)

theorem drawLine_whole (h : (x0 = x1 ∧ delta y0 y1 = 65535) ∨ y0 = y1 ∧ delta x0 x1 = 65535) : drawLine x0 y0 x1 y1 = [] := by
  unfold drawLine
  rcases h with ⟨rfl, hd⟩ | ⟨rfl, hd⟩
  · rw [if_pos rfl, fill_column, span_whole hd, List.map_nil]
  · have hne : x0 ≠ x1 := fun he => by
      rw [he, delta_self] at hd
      cases hd
    rw [if_neg hne, if_pos rfl, fill_row, span_whole hd, List.map_nil]

/-- **Lines are exact**: a line colours the pixels of the rule and no others,
one for each step along its longer axis, both end points with them, if and only
if it is not a straight line of `2 ^ 16` pixels. -/
theorem line_exact (x0 y0 x1 y1 : UInt16) :
    (((drawLine x0 y0 x1 y1).map Pixel.toNat).Perm
        ((List.range (steps x0 y0 x1 y1 + 1)).map (onLine x0 y0 x1 y1)) ∧
      onLine x0 y0 x1 y1 0 = (x0.toNat, y0.toNat) ∧ onLine x0 y0 x1 y1 (steps x0 y0 x1 y1) = (x1.toNat, y1.toNat) ∧
      ∀ i ≤ steps x0 y0 x1 y1, ∀ j ≤ steps x0 y0 x1 y1, onLine x0 y0 x1 y1 i = onLine x0 y0 x1 y1 j → i = j) ↔
    ¬(x0 = x1 ∧ delta y0 y1 = 65535) ∧ ¬(y0 = y1 ∧ delta x0 x1 = 65535) := by
  unfold steps
  constructor
  · rintro ⟨hperm, -⟩
    rw [← not_or]
    intro hwhole
    rw [drawLine_whole hwhole] at hperm
    simpa using hperm.length_eq
  rintro ⟨hx, hy⟩
  refine ⟨drawLine_perm hx hy, by simp [onLine, onAxis, rounded_zero, toward_self], ?_, fun i hi j hj h => ?_⟩
  · unfold onLine onAxis
    split
    next hle => rw [max_eq_left hle, rounded_end hle, toward_end, toward_end]
    next hlt =>
      have hle := (not_le.mp hlt).le
      rw [max_eq_right hle, rounded_end hle, toward_end, toward_end]
      rfl
  · unfold onLine onAxis at h
    split at h
    next hle =>
      rw [max_eq_left hle] at hi hj
      exact toward_inj hi hj (congrArg Prod.fst h)
    next hlt =>
      rw [max_eq_right (not_le.mp hlt).le] at hi hj
      exact toward_inj hi hj (congrArg Prod.snd h)

/-- A line with a slope. -/
theorem line_exact_slope : ((drawLine 0 0 3 1).map Pixel.toNat).Perm [(0, 0), (1, 0), (2, 1), (3, 1)] :=
  ((line_exact 0 0 3 1).mpr (by decide)).1

/-- A column over the whole range of coordinates is not drawn at all. -/
theorem line_not_drawn_whole : drawLine 7 0 7 65535 = [] ∧ onLine 7 0 7 65535 0 = (7, 0) := by
  decide

end Isix.Gdi
