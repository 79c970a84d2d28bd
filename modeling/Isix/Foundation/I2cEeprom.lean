import Mathlib.Algebra.Group.Nat.Defs

/-!
# Isix.Foundation.I2cEeprom

`drv/storage/i2c_eeprom.cpp`: where a serial memory is read and written.  The
24c16 takes the high bits of an address as a part of its bus address, the 24c128
takes two bytes of word address.
-/

namespace Isix.Foundation.I2cEeprom

/-- `i2c_eeprom::type` -/
inductive Device where
  | m24c16
  | m24c128

/-- `pg_size` -/
def Device.pgSize : Device → Nat
  | .m24c16 => 16
  | .m24c128 => 64

/-- `pg_count` -/
def Device.pgCount : Device → Nat
  | .m24c16 => 128
  | .m24c128 => 256

/-- The arguments of `read` and `write`, apart from the buffer. -/
structure Request where
  pg : UInt32
  pa : UInt32
  len : UInt32

/-- What goes to the bus: its address, the word address and whether data are
written behind it. -/
structure Frame where
  bus : Nat
  word : Nat
  write : Bool
  deriving DecidableEq

def errAddrRange : Int := -2048

/-- `ibus::err_ack_failure` -/
def errAckFailure : Int := -1026

variable (dev : Device) (addr : UInt8) (write : Bool)

/-- The frame for an offset; `addr_order` puts the word address of the 24c128
on the bus with the high byte first. -/
def frameAt (offset : Nat) : Frame :=
  match dev with
  | .m24c16 => ⟨(offset / 256 * 2 + addr.toNat) % 256, offset % 256, write⟩
  | .m24c128 => ⟨addr.toNat, offset % 2 ^ 16, write⟩

/-- The loop over the attempts; `reply` is what the bus returns to each. -/
def attempts (f : Frame) (reply : Nat → Int) : Nat → Nat → List Frame × Int
  | 0, retry => ([], reply (retry - 1))
  | n + 1, retry =>
    if reply retry = errAckFailure then
      let (frames, ret) := attempts f reply n (retry + 1)
      (f :: frames, ret)
    else ([f], reply retry)

/-- `i2c_eeprom::read`, and `i2c_eeprom::write` for `write`: the frames sent and
the value returned -/
def access (reply : Nat → Int) (r : Request) : List Frame × Int :=
  if dev.pgSize < (r.pa.toNat + r.len.toNat) % 2 ^ 32 then ([], errAddrRange)
  else if dev.pgCount < r.pg.toNat then ([], errAddrRange)
  else attempts (frameAt dev addr write ((r.pg.toNat * dev.pgSize + r.pa.toNat) % 2 ^ 32)) reply 5 0

/-- The bus address and the word address of byte `i` of a transfer; the memory
counts the word address on. -/
def Frame.place (f : Frame) (i : Nat) : Nat × Nat := (f.bus, f.word + i)

/-- The pairs of addresses of the device. -/
def InRange (p : Nat × Nat) : Prop :=
  match dev with
  | .m24c16 => (∃ block < 8, p.1 = (block * 2 + addr.toNat) % 256) ∧ p.2 < 256
  | .m24c128 => p.1 = addr.toNat ∧ p.2 < 16384

/-- The transfer is inside a page of the device. -/
def Request.Inside (r : Request) : Prop :=
  r.pg.toNat < dev.pgCount ∧ r.pa.toNat + r.len.toNat ≤ dev.pgSize

/-- **Condition on the arguments**: a transfer that passes the tests is not on
the page behind the last one and does not end behind `2 ^ 32`. -/
def Request.Plain (r : Request) : Prop :=
  r.pg.toNat ≤ dev.pgCount → (r.pa.toNat + r.len.toNat) % 2 ^ 32 ≤ dev.pgSize →
    r.pg.toNat ≠ dev.pgCount ∧ r.pa.toNat + r.len.toNat < 2 ^ 32

instance (r : Request) : Decidable (r.Plain dev) := by
  unfold Request.Plain
  infer_instance

variable {dev addr write} {reply : Nat → Int} {r : Request}

theorem mem_attempts {f g : Frame} {n retry : Nat} (h : g ∈ (attempts f reply n retry).1) : g = f := by
  induction n generalizing retry with
  | zero => cases h
  | succ n ih =>
    rw [attempts] at h
    split at h
    · rcases List.mem_cons.mp h with h | h
      · exact h
      · exact ih h
    · exact List.mem_singleton.mp h

theorem accepted_iff : (access dev addr write reply r).1 ≠ [] ↔
    (r.pa.toNat + r.len.toNat) % 2 ^ 32 ≤ dev.pgSize ∧ r.pg.toNat ≤ dev.pgCount := by
  unfold access
  split
  · simp
    omega
  · split
    · simp
      omega
    · rw [attempts]
      split <;> simp <;> omega

/-- The tests are those of the page exactly for such arguments. -/
theorem accepted_inside_iff : ((access dev addr write reply r).1 ≠ [] ↔ r.Inside dev) ↔ r.Plain dev := by
  have hsize : dev.pgSize < 2 ^ 32 := by cases dev <;> decide
  rw [accepted_iff]
  unfold Request.Inside Request.Plain
  omega

/-- The byte at `pa` of page `pg` has the place of its offset; a page does not
cross the end of a block. -/
theorem place_eq {f : Frame} {i : Nat} (h : r.Plain dev) (hf : f ∈ (access dev addr write reply r).1)
    (hi : i < r.len.toNat) : r.pg.toNat < dev.pgCount ∧ r.pa.toNat + i < dev.pgSize ∧
      f.place i = (frameAt dev addr write (r.pg.toNat * dev.pgSize + (r.pa.toNat + i))).place 0 := by
  obtain ⟨hpg, hpa⟩ := (accepted_inside_iff.mpr h).mp (List.ne_nil_of_mem hf)
  have hsize : dev.pgSize < 2 ^ 32 := by cases dev <;> decide
  unfold access at hf
  rw [if_neg (by omega), if_neg (by omega)] at hf
  rw [mem_attempts hf]
  refine ⟨hpg, by omega, ?_⟩
  cases dev <;> simp only [Device.pgCount, Device.pgSize, frameAt, Frame.place, Prod.mk.injEq, true_and] at * <;> omega

variable (dev addr)

/-- **Pages do not alias**: two transfers are accepted iff they are inside a page
of the device, and two of their bytes, read or written, have the same pair of
addresses iff they are the same byte, if and only if the arguments of both are
such ones. -/
theorem pages_do_not_alias (r r' : Request) :
    ((∀ write reply, ((access dev addr write reply r).1 ≠ [] ↔ r.Inside dev) ∧
        ((access dev addr write reply r').1 ≠ [] ↔ r'.Inside dev)) ∧
      ∀ write write' reply reply', ∀ f ∈ (access dev addr write reply r).1, ∀ f' ∈ (access dev addr write' reply' r').1,
        ∀ i < r.len.toNat, ∀ j < r'.len.toNat, InRange dev addr (f.place i) ∧
          (f.place i = f'.place j ↔ r.pg = r'.pg ∧ r.pa.toNat + i = r'.pa.toNat + j)) ↔
    r.Plain dev ∧ r'.Plain dev := by
  constructor
  · rintro ⟨haccept, -⟩
    have h := haccept true fun _ => 0
    exact ⟨accepted_inside_iff.mp h.1, accepted_inside_iff.mp h.2⟩
  rintro ⟨h, h'⟩
  refine ⟨fun _ _ => ⟨accepted_inside_iff.mpr h, accepted_inside_iff.mpr h'⟩,
    fun write write' reply reply' f hf f' hf' i hi j hj => ?_⟩
  obtain ⟨hpg, hpa, hplace⟩ := place_eq h hf hi
  obtain ⟨hpg', hpa', hplace'⟩ := place_eq h' hf' hj
  have haddr := addr.toNat_lt
  rw [hplace, hplace', ← UInt32.toNat_inj]
  cases dev with
  | m24c16 =>
    simp only [Device.pgCount, Device.pgSize, frameAt, Frame.place, InRange, Prod.mk.injEq] at *
    exact ⟨⟨⟨_, by omega, rfl⟩, by omega⟩, by omega⟩
  | m24c128 =>
    simp only [Device.pgCount, Device.pgSize, frameAt, Frame.place, InRange, Prod.mk.injEq, true_and] at *
    omega

/-- Two bytes of the first page. -/
theorem pages_do_not_alias_first : InRange .m24c16 160 (Frame.place ⟨160, 0, false⟩ 3) ∧
    (Frame.place ⟨160, 0, false⟩ 3 = Frame.place ⟨160, 8, true⟩ 2 ↔ (0 : UInt32) = 0 ∧ 0 + 3 = 8 + 2) :=
  ((pages_do_not_alias .m24c16 160 ⟨0, 0, 4⟩ ⟨0, 8, 4⟩).mpr (by decide)).2 false true (fun _ => 0) (fun _ => 0)
    ⟨160, 0, false⟩ (by decide) ⟨160, 8, true⟩ (by decide) 3 (by decide) 2 (by decide)

/-- The page behind the last one is accepted, and an offset next to `2 ^ 32` on
page 1 is the first byte of the memory. -/
theorem pages_alias : ∃ f g : Frame, f ∈ (access .m24c16 160 true (fun _ => 0) ⟨128, 0, 1⟩).1 ∧
    ¬InRange .m24c16 160 (f.place 0) ∧ g ∈ (access .m24c16 160 true (fun _ => 0) ⟨1, 4294967280, 17⟩).1 ∧
      g ∈ (access .m24c16 160 true (fun _ => 0) ⟨0, 0, 1⟩).1 := by
  refine ⟨⟨176, 0, true⟩, ⟨160, 0, true⟩, by decide, fun h => ?_, by decide, by decide⟩
  obtain ⟨⟨block, hlt, he⟩, -⟩ := h
  have : (160 : UInt8).toNat = 160 := rfl
  simp only [Frame.place] at he
  omega

end Isix.Foundation.I2cEeprom
