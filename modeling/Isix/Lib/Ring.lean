import Mathlib.Data.List.Basic
import Mathlib.Data.Nat.ModEq

/-!
# Isix.Lib.Ring

Circular buffers in flat memory.  A buffer of `n` items of `w` cells each
keeps item number `i` at the offset `i % n * w`; a reader and a writer go
around it, each with an offset of its own.  `Window` says that the items from
the reader's on are still there.
-/

namespace Ring

variable {α : Type}

/-! ## copying -/

/-- Copy `item` to the cells from `p` on. -/
def blit (p : Nat) (item : List α) (mem : Nat → α) : Nat → α :=
  fun a => if p ≤ a then (item[a - p]?).getD (mem a) else mem a

/-- The `w` cells from `p` on. -/
def slice (p w : Nat) (mem : Nat → α) : List α := (List.range w).map fun i => mem (p + i)

variable {p q w n i j k : Nat} {item : List α} {mem : Nat → α}

@[simp] theorem length_slice : (slice p w mem).length = w := by simp [slice]

theorem slice_add : slice p (n + w) mem = slice p n mem ++ slice (p + n) w mem := by
  unfold slice
  rw [List.range_add, List.map_append, List.map_map]
  simp only [Function.comp_def, Nat.add_assoc]

theorem slice_blit_self (h : item.length = w) : slice p w (blit p item mem) = item := by
  subst h
  apply List.ext_getElem
  · simp [slice]
  · intro i h₁ h₂
    simp [slice, blit, h₂]

theorem blit_outside (h : q + 1 ≤ p ∨ p + item.length ≤ q) : blit p item mem q = mem q := by
  unfold blit
  split
  · rw [List.getElem?_eq_none (by omega)]
    rfl
  · rfl

theorem slice_blit_disjoint (h : q + w ≤ p ∨ p + item.length ≤ q) :
    slice q w (blit p item mem) = slice q w mem := by
  apply List.map_congr_left
  intro i hi
  have hi := List.mem_range.mp hi
  exact blit_outside (by omega)

/-! ## going around -/

/-- The offset behind `p` in a buffer of `size` cells. -/
def advance (size w p : Nat) : Nat := if size ≤ p + w then 0 else p + w

theorem advance_eq (hn : 0 < n) : advance (n * w) w (k % n * w) = (k + 1) % n * w := by
  have hk : k % n < n := Nat.mod_lt k hn
  have hmod : (k + 1) % n = (k % n + 1) % n := by rw [Nat.mod_add_mod]
  rw [hmod]
  unfold advance
  by_cases hlast : k % n + 1 = n
  · rw [hlast, Nat.mod_self, Nat.zero_mul, if_pos]
    rw [← Nat.succ_mul, Nat.succ_eq_add_one, hlast]
  · have hstep : (k % n + 1) % n = k % n + 1 := Nat.mod_eq_of_lt (by omega)
    rw [hstep, ← Nat.succ_mul, Nat.succ_eq_add_one]
    cases w with
    | zero => simp
    | succ w =>
      rw [if_neg]
      have hlt : k % n + 1 < n := by omega
      exact Nat.not_le_of_lt (Nat.mul_lt_mul_of_pos_right hlt (Nat.succ_pos w))

theorem slot_ne (hij : i < k) (hk : k < i + n) : i % n ≠ k % n := by
  intro he
  have hd : n ∣ k - i := (Nat.modEq_iff_dvd' (Nat.le_of_lt hij)).mp he
  have hle := Nat.le_of_dvd (by omega) hd
  omega

/-- Two different slots do not overlap. -/
theorem slots_disjoint (h : i % n ≠ k % n) :
    i % n * w + w ≤ k % n * w ∨ k % n * w + w ≤ i % n * w := by
  rw [← Nat.succ_mul, ← Nat.succ_mul]
  cases Nat.lt_or_gt_of_ne h with
  | inl hlt => exact .inl (Nat.mul_le_mul_right w hlt)
  | inr hgt => exact .inr (Nat.mul_le_mul_right w hgt)

/-! ## the items in the buffer -/

/-- The items of `l` from number `j` on are in the buffer. -/
def Window (n w : Nat) (mem : Nat → α) (l : List (List α)) (j : Nat) : Prop :=
  ∀ i item, j ≤ i → l[i]? = some item → slice (i % n * w) w mem = item

variable {l : List (List α)}

theorem Window.nil : Window n w mem [] j := fun i item _ h => by simp at h

/-- A new item goes where no item of the window is. -/
theorem Window.push (h : Window n w mem l j) (hroom : l.length < j + n) (hw : item.length = w) :
    Window n w (blit (l.length % n * w) item mem) (l ++ [item]) j := by
  intro i x hj hx
  by_cases hi : i < l.length
  · rw [List.getElem?_append_left hi] at hx
    rw [slice_blit_disjoint, h i x hj hx]
    rw [hw]
    exact slots_disjoint (slot_ne hi (by omega))
  · rw [List.getElem?_append_right (by omega), List.getElem?_singleton] at hx
    have hi' : i = l.length := by
      by_contra hne
      rw [if_neg (by omega)] at hx
      cases hx
    subst hi'
    rw [Nat.sub_self, if_pos rfl] at hx
    cases hx
    exact slice_blit_self hw

/-- The reader takes the first item of the window. -/
theorem Window.pop (h : Window n w mem l j) : Window n w mem l (j + 1) := fun i item hj hx =>
  h i item (Nat.le_of_succ_le hj) hx

/-! ## rings of single cells -/

/-- A ring of `n` cells with a head, a tail and a count, into which the items of `l` were put one after
the other and from which `j` of them were taken. -/
structure Holds (n : Nat) (buf : Nat → α) (head tail count : Nat) (l : List α) (j : Nat) : Prop where
  pos : 0 < n
  head_eq : head = j % n
  tail_eq : tail = l.length % n
  count_eq : j + count = l.length
  count_le : count ≤ n
  cells : ∀ i x, j ≤ i → l[i]? = some x → buf (i % n) = x

namespace Holds

variable {buf : Nat → α} {head tail count : Nat} {l : List α} {x : α}

theorem init (hn : 0 < n) : Holds n buf 0 0 0 [] 0 :=
  ⟨hn, (Nat.zero_mod n).symm, (Nat.zero_mod n).symm, rfl, Nat.zero_le n, fun i x _ h => by simp at h⟩

section

variable (h : Holds n buf head tail count l j)

include h

/-- The cell behind the tail is free. -/
theorem push (hroom : count < n) :
    Holds n (Function.update buf tail x) head ((tail + 1) % n) (count + 1) (l ++ [x]) j where
  pos := h.pos
  head_eq := h.head_eq
  tail_eq := by rw [h.tail_eq, Nat.mod_add_mod, List.length_append, List.length_singleton]
  count_eq := by rw [List.length_append, List.length_singleton, ← h.count_eq, Nat.add_assoc]
  count_le := hroom
  cells i y hj hy := by
    have hcount := h.count_eq
    by_cases hi : i < l.length
    · rw [List.getElem?_append_left hi] at hy
      rw [Function.update_of_ne, h.cells i y hj hy]
      rw [h.tail_eq]
      exact slot_ne hi (by omega)
    · rw [List.getElem?_append_right (by omega), List.getElem?_singleton] at hy
      have hi' : i = l.length := by
        by_contra hne
        rw [if_neg (by omega)] at hy
        cases hy
      subst hi'
      rw [Nat.sub_self, if_pos rfl] at hy
      cases hy
      rw [h.tail_eq, Function.update_self]

/-- The head is at the first item that was not taken yet. -/
theorem front (hc : 0 < count) : l[j]? = some (buf head) := by
  have hcount := h.count_eq
  have hj : j < l.length := by omega
  rw [List.getElem?_eq_getElem hj, h.head_eq]
  exact congrArg some (h.cells j _ (Nat.le_refl j) (List.getElem?_eq_getElem hj)).symm

theorem pop (hc : 0 < count) :
    Holds n buf ((head + 1) % n) tail (count - 1) l (j + 1) where
  pos := h.pos
  head_eq := by rw [h.head_eq, Nat.mod_add_mod]
  tail_eq := h.tail_eq
  count_eq := by
    have := h.count_eq
    omega
  count_le := Nat.le_trans (Nat.sub_le ..) h.count_le
  cells i y hj hy := h.cells i y (Nat.le_of_succ_le hj) hy

theorem head_lt : head < n := h.head_eq ▸ Nat.mod_lt _ h.pos

theorem tail_lt : tail < n := h.tail_eq ▸ Nat.mod_lt _ h.pos

end

end Holds

end Ring
