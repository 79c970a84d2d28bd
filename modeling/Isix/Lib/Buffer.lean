import Isix.Lib.Ring

/-!
# Isix.Lib.Buffer

Character memory that remembers what was written.  A program that fills a
buffer byte by byte is a sequence of `put`; `write` is a run of them.  What
stands in memory afterwards is said with `slice`, and where the program wrote
with `touched`.  A C string is text before a zero (`IsString`).
-/

namespace Buffer

open Function (update)
open Ring (blit slice)

structure Buf where
  mem : Nat → UInt8
  /-- the addresses written so far -/
  touched : List Nat := []

def Buf.put (a : Nat) (c : UInt8) (b : Buf) : Buf := ⟨update b.mem a c, a :: b.touched⟩

/-- One byte after the other, from `p` on. -/
def Buf.write (p : Nat) : List UInt8 → Buf → Buf
  | [], b => b
  | c :: l, b => Buf.write (p + 1) l (b.put p c)

variable {a p q n : Nat} {c : UInt8} {l l' : List UInt8} {b : Buf}

@[simp] theorem put_self : (b.put a c).mem a = c := Function.update_self ..

theorem put_of_ne (h : q ≠ a) : (b.put a c).mem q = b.mem q := Function.update_of_ne h ..

theorem mem_touched_put : q ∈ (b.put a c).touched ↔ q = a ∨ q ∈ b.touched := List.mem_cons

theorem write_outside (h : q < p ∨ p + l.length ≤ q) : (b.write p l).mem q = b.mem q := by
  induction l generalizing p b with
  | nil => rfl
  | cons c l ih =>
    rw [List.length_cons] at h
    rw [Buf.write, ih (by omega), put_of_ne (by omega)]

theorem write_inside (i : Nat) (hi : i < l.length) : (b.write p l).mem (p + i) = l.get ⟨i, hi⟩ := by
  induction l generalizing p b i with
  | nil => cases hi
  | cons c l ih =>
    rw [Buf.write]
    cases i with
    | zero =>
      rw [write_outside (by omega), Nat.add_zero, put_self]
      rfl
    | succ i =>
      have hi' : i < l.length := by simpa using hi
      have h := ih (p := p + 1) (b := b.put p c) i hi'
      rw [show p + (i + 1) = p + 1 + i by omega, h]
      rfl

theorem write_append : b.write p (l ++ l') = (b.write p l).write (p + l.length) l' := by
  induction l generalizing p b with
  | nil => rfl
  | cons c l ih =>
    rw [List.cons_append, Buf.write, ih, Buf.write, List.length_cons, show p + 1 + l.length = p + (l.length + 1) by omega]

theorem mem_touched_write : q ∈ (b.write p l).touched ↔ p ≤ q ∧ q < p + l.length ∨ q ∈ b.touched := by
  induction l generalizing p b with
  | nil => simp [Buf.write]
  | cons c l ih =>
    rw [Buf.write, ih, mem_touched_put, List.length_cons]
    constructor
    · rintro (h | rfl | h)
      · exact .inl (by omega)
      · exact .inl (by omega)
      · exact .inr h
    · rintro (h | h)
      · by_cases hq : q = p
        · exact .inr (.inl hq)
        · exact .inl (by omega)
      · exact .inr (.inr h)

theorem slice_write : slice p l.length (b.write p l).mem = l := by
  apply List.ext_getElem
  · simp [slice]
  · intro i h₁ h₂
    have hi := write_inside (p := p) (b := b) i h₂
    simpa [slice] using hi

theorem slice_put_outside (h : a < p ∨ p + n ≤ a) : slice p n (b.put a c).mem = slice p n b.mem := by
  apply List.map_congr_left
  intro i hi
  have hi' : i < n := List.mem_range.mp hi
  exact put_of_ne (by omega)

theorem slice_write_outside (h : p + n ≤ a ∨ a + l.length ≤ p) : slice p n (b.write a l).mem = slice p n b.mem := by
  apply List.map_congr_left
  intro i hi
  have hi' : i < n := List.mem_range.mp hi
  exact write_outside (by omega)

/-- The text of a C string, without its terminator. -/
abbrev CString := { text : List UInt8 // ∀ c ∈ text, c ≠ 0 }

theorem nonzero_of_all {text : List UInt8} (h : text.all (· ≠ 0) = true) : ∀ c ∈ text, c ≠ 0 := by
  simpa using h

/-- The bytes are text, and a zero ends it. -/
structure IsString (mem : Nat → UInt8) (p : Nat) (text : List UInt8) : Prop where
  bytes : slice p text.length mem = text
  zero : mem (p + text.length) = 0
  nonzero : ∀ c ∈ text, c ≠ 0

end Buffer
