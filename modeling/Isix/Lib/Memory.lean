import Isix.Lib.Ring

/-!
# Isix.Lib.Memory

Flat byte memory with little-endian numbers.  A number of `n` bytes is stored at
any address; a load gives back what the last store at this address wrote, and a
store elsewhere does not matter.  Words at addresses that are multiples of four
are equal or apart, so for them a store is a plain update.
-/

namespace Memory

open Ring (blit slice)

abbrev Mem := Nat → UInt8

/-! ## numbers and bytes -/

/-- The `n` low bytes of a number, the lowest first. -/
def toBytes : Nat → Nat → List UInt8
  | 0, _ => []
  | n + 1, v => UInt8.ofNat v :: toBytes n (v / 256)

def ofBytes : List UInt8 → Nat
  | [] => 0
  | b :: l => b.toNat + 256 * ofBytes l

theorem length_toBytes (n v : Nat) : (toBytes n v).length = n := by
  induction n generalizing v with
  | zero => rfl
  | succ n ih => simp [toBytes, ih]

theorem ofBytes_toBytes (n v : Nat) : ofBytes (toBytes n v) = v % 256 ^ n := by
  induction n generalizing v with
  | zero => simp [toBytes, ofBytes, Nat.mod_one]
  | succ n ih =>
    have hb : (UInt8.ofNat v).toNat = v % 256 := by simp
    rw [toBytes, ofBytes, ih, hb, Nat.pow_succ, Nat.mul_comm (256 ^ n), Nat.mod_mul]

theorem ofBytes_lt (l : List UInt8) : ofBytes l < 256 ^ l.length := by
  induction l with
  | nil => simp [ofBytes]
  | cons b l ih =>
    have hb := b.toNat_lt
    simp only [ofBytes, List.length_cons, Nat.pow_succ]
    omega

theorem toBytes_ofBytes (l : List UInt8) : toBytes l.length (ofBytes l) = l := by
  induction l with
  | nil => rfl
  | cons b l ih =>
    have hb := b.toNat_lt
    rw [List.length_cons, ofBytes, toBytes, show (b.toNat + 256 * ofBytes l) / 256 = ofBytes l by omega, ih]
    congr 1
    exact UInt8.toNat_inj.mp (by rw [UInt8.toNat_ofNat']; omega)

/-! ## loads and stores -/

def load (n a : Nat) (m : Mem) : Nat := ofBytes (slice a n m)

def store (n a v : Nat) (m : Mem) : Mem := blit a (toBytes n v) m

/-- `memcpy` -/
def copy (dst src n : Nat) (m : Mem) : Mem := blit dst (slice src n m) m

variable {n k a b v x : Nat} {m : Mem}

theorem toBytes_load (n a : Nat) (m : Mem) : toBytes n (load n a m) = slice a n m := by
  have h := toBytes_ofBytes (slice a n m)
  rwa [Ring.length_slice] at h

theorem load_lt (n a : Nat) (m : Mem) : load n a m < 256 ^ n := by
  have h := ofBytes_lt (slice a n m)
  rwa [show (slice a n m).length = n by simp [slice]] at h

theorem load_congr {m' : Mem} (h : ∀ x, a ≤ x → x < a + n → m' x = m x) : load n a m' = load n a m := by
  unfold load slice
  congr 1
  apply List.map_congr_left
  intro i hi
  have hi := List.mem_range.mp hi
  exact h (a + i) (by omega) (by omega)

theorem load_store_self (n a v : Nat) (m : Mem) : load n a (store n a v m) = v % 256 ^ n := by
  rw [load, store, Ring.slice_blit_self (length_toBytes n v), ofBytes_toBytes]

theorem store_outside (h : x < a ∨ a + n ≤ x) : store n a v m x = m x :=
  Ring.blit_outside (by rw [length_toBytes]; omega)

theorem load_store_disjoint (h : b + k ≤ a ∨ a + n ≤ b) : load k b (store n a v m) = load k b m :=
  load_congr fun x hx hx' => store_outside (by omega)

theorem copy_outside (h : x < a ∨ a + n ≤ x) : copy a b n m x = m x :=
  Ring.blit_outside (by simp [slice]; omega)

theorem copy_inside (h : x < n) : copy a b n m (a + x) = m (b + x) := by
  simp [copy, blit, slice, h]

/-! ## words -/

/-- A store to an aligned word is an update of that word. -/
theorem word_store (ha : 4 ∣ a) (hb : 4 ∣ b) (hv : v < 2 ^ 32) :
    load 4 b (store 4 a v m) = if b = a then v else load 4 b m := by
  split
  · rename_i h
    rw [h, load_store_self]
    exact Nat.mod_eq_of_lt (by omega)
  · exact load_store_disjoint (by omega)

end Memory
