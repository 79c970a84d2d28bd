import Mathlib.Algebra.Group.Nat.Defs
import Mathlib.Data.List.Basic

/-!
# Isix.Cache

The data cache of the Cortex-M7 by address (`cache.c`).  A write to one of three
registers does the maintenance of the 32-byte line that contains the address.
The loops start at the address they are given, which need not be the start of a
line, and count the size down by lines.
-/

namespace Isix.Cache

/-- `linesize` -/
def linesize : Nat := 32

inductive Register
  | dcimvac
  | dccmvac
  | dccimvac
deriving DecidableEq, Repr

/-- `while (op_size > 0)`: the addresses written to the register. -/
def loop (opAddr : BitVec 32) (opSize : Int) : List (BitVec 32) :=
  if 0 < opSize then opAddr :: loop (opAddr + BitVec.ofNat 32 linesize) (opSize - linesize) else []
termination_by opSize.toNat
decreasing_by simp only [linesize]; omega

/-- The maintenance of a range; `op_size` is a signed copy of the size. -/
def byAddr (reg : Register) (addr : BitVec 32) (dsize : Nat) : List (Register × BitVec 32) :=
  (loop addr (BitVec.ofNat 32 dsize).toInt).map (reg, ·)

/-- `isix_inval_dcache_by_addr` -/
def isixInvalDcacheByAddr : BitVec 32 → Nat → List (Register × BitVec 32) := byAddr .dcimvac

/-- `isix_clean_dcache_by_addr` -/
def isixCleanDcacheByAddr : BitVec 32 → Nat → List (Register × BitVec 32) := byAddr .dccmvac

/-- `isix_clean_inval_dcache_by_addr` -/
def isixCleanInvalDcacheByAddr : BitVec 32 → Nat → List (Register × BitVec 32) := byAddr .dccimvac

variable {addr a : BitVec 32} {dsize size : Nat} {reg : Register}

/-- The line a write to a register is about. -/
def line (a : BitVec 32) : Nat := a.toNat / linesize

/-- Every line with a byte of the range is maintained, and no other one. -/
def Covers (reg : Register) (addr : BitVec 32) (dsize : Nat) (ops : List (Register × BitVec 32)) : Prop :=
  (∀ op ∈ ops, op.1 = reg) ∧
    ∀ l, (∃ op ∈ ops, line op.2 = l) ↔ ∃ b, addr.toNat ≤ b ∧ b < addr.toNat + dsize ∧ b / linesize = l

/-- The loop writes every 32nd address of the range, from its first one on. -/
theorem mem_loop (h : addr.toNat + size ≤ 2 ^ 32) :
    a ∈ loop addr size ↔ ∃ k, linesize * k < size ∧ a.toNat = addr.toNat + linesize * k := by
  induction size using Nat.strongRecOn generalizing addr with
  | ind size ih =>
    rw [loop]
    by_cases hpos : 0 < size
    · rw [if_pos (by omega), List.mem_cons]
      -- the rest of the loop covers the rest of the range
      have hnext : (addr + BitVec.ofNat 32 linesize).toNat = (addr.toNat + linesize) % 2 ^ 32 := by
        simp [BitVec.toNat_add, linesize]
      have hrest : a ∈ loop (addr + BitVec.ofNat 32 linesize) ((size : Int) - linesize) ↔
          ∃ k, linesize * (k + 1) < size ∧ a.toNat = addr.toNat + linesize * (k + 1) := by
        by_cases hlt : linesize < size
        · rw [Nat.mod_eq_of_lt (by omega)] at hnext
          rw [show (size : Int) - linesize = ((size - linesize : Nat) : Int) by omega,
            ih (size - linesize) (by unfold linesize; omega) (by omega), hnext]
          refine exists_congr fun k => ?_
          rw [Nat.mul_succ]
          omega
        · rw [loop, if_neg (by omega)]
          simp only [List.not_mem_nil, false_iff, not_exists]
          intro k
          rw [Nat.mul_succ]
          omega
      rw [hrest, ← BitVec.toNat_inj]
      constructor
      · rintro (heq | ⟨k, hk⟩)
        · exact ⟨0, by omega, by omega⟩
        · exact ⟨k + 1, hk⟩
      · rintro ⟨k, hk⟩
        cases k with
        | zero => exact .inl (by omega)
        | succ k => exact .inr ⟨k, hk⟩
    · rw [if_neg (by omega)]
      simp only [List.not_mem_nil, false_iff, not_exists]
      omega

theorem mem_byAddr {op : Register × BitVec 32} (hsize : dsize < 2 ^ 31) (hrange : addr.toNat + dsize ≤ 2 ^ 32) :
    op ∈ byAddr reg addr dsize ↔ op.1 = reg ∧ ∃ k, linesize * k < dsize ∧ op.2.toNat = addr.toNat + linesize * k := by
  have hint : (BitVec.ofNat 32 dsize).toInt = dsize := by
    have hnat : (BitVec.ofNat 32 dsize).toNat = dsize := by
      rw [BitVec.toNat_ofNat, Nat.mod_eq_of_lt (by omega)]
    rw [BitVec.toInt_eq_toNat_of_lt (by omega), hnat]
  unfold byAddr
  rw [hint, List.mem_map]
  constructor
  · rintro ⟨a, ha, rfl⟩
    exact ⟨rfl, (mem_loop hrange).mp ha⟩
  · rintro ⟨rfl, h⟩
    exact ⟨op.2, (mem_loop hrange).mpr h, rfl⟩

theorem byAddr_covers (hpos : 0 < dsize) (hsize : dsize < 2 ^ 31) (hrange : addr.toNat + dsize ≤ 2 ^ 32) :
    Covers reg addr dsize (byAddr reg addr dsize) ↔
      (addr.toNat % linesize + (dsize - 1)) / linesize = (dsize - 1) / linesize := by
  unfold Covers line
  simp only [mem_byAddr hsize hrange]
  unfold linesize
  constructor
  · -- the write for the line of the last byte is at most as many lines behind the first as the size has
    intro ⟨_, hlines⟩
    obtain ⟨op, ⟨-, k, hk, hop⟩, hline⟩ :=
      (hlines ((addr.toNat + (dsize - 1)) / 32)).mpr ⟨addr.toNat + (dsize - 1), by omega, by omega, rfl⟩
    omega
  · refine fun hlast => ⟨fun op hop => hop.1, fun l => ⟨?_, ?_⟩⟩
    · rintro ⟨op, ⟨-, k, hk, hop⟩, rfl⟩
      exact ⟨op.2.toNat, by omega, by omega, rfl⟩
    · rintro ⟨b, hle, hlt, rfl⟩
      -- the write for the line of `b` is the one that is as many lines behind the first
      obtain ⟨k, hk⟩ : ∃ k, k = b / 32 - addr.toNat / 32 := ⟨_, rfl⟩
      have hin : 32 * k < dsize := by omega
      have hnat : (BitVec.ofNat 32 (addr.toNat + 32 * k)).toNat = addr.toNat + 32 * k := by
        rw [BitVec.toNat_ofNat, Nat.mod_eq_of_lt (by omega)]
      exact ⟨(reg, BitVec.ofNat 32 (addr.toNat + 32 * k)), ⟨rfl, k, hin, hnat⟩, by dsimp only; omega⟩

/-- **Whole lines**: the maintenance of a range covers it if and only if the last byte is not in a line more than the
size alone needs, as for every range that starts at a line. -/
theorem maintenance_covers (addr : BitVec 32) (dsize : Nat) (hpos : 0 < dsize) (hsize : dsize < 2 ^ 31)
    (hrange : addr.toNat + dsize ≤ 2 ^ 32) :
    (Covers .dccmvac addr dsize (isixCleanDcacheByAddr addr dsize) ↔
        (addr.toNat % linesize + (dsize - 1)) / linesize = (dsize - 1) / linesize) ∧
      (Covers .dcimvac addr dsize (isixInvalDcacheByAddr addr dsize) ↔
        (addr.toNat % linesize + (dsize - 1)) / linesize = (dsize - 1) / linesize) ∧
      (Covers .dccimvac addr dsize (isixCleanInvalDcacheByAddr addr dsize) ↔
        (addr.toNat % linesize + (dsize - 1)) / linesize = (dsize - 1) / linesize) :=
  ⟨byAddr_covers hpos hsize hrange, byAddr_covers hpos hsize hrange, byAddr_covers hpos hsize hrange⟩

theorem maintenance_covers_page : Covers .dccmvac 0x20000010#32 65 (isixCleanDcacheByAddr 0x20000010#32 65) :=
  (maintenance_covers 0x20000010#32 65 (by decide) (by decide) (by decide)).1.mpr (by decide)

/-- Two bytes on both sides of the start of a line: only the first line is maintained. -/
theorem second_line_missed :
    isixCleanDcacheByAddr 31#32 2 = [(.dccmvac, 31#32)] ∧ ¬Covers .dccmvac 31#32 2 (isixCleanDcacheByAddr 31#32 2) := by
  have hops : isixCleanDcacheByAddr 31#32 2 = [(.dccmvac, 31#32)] := by
    have hint : (BitVec.ofNat 32 2).toInt = 2 := by decide
    unfold isixCleanDcacheByAddr byAddr
    rw [hint, loop, loop]
    rfl
  refine ⟨hops, fun h => ?_⟩
  rw [hops] at h
  obtain ⟨op, hop, hline⟩ := (h.2 1).mpr ⟨32, by decide, by decide, by decide⟩
  rw [List.mem_singleton.mp hop] at hline
  exact absurd hline (by decide)

end Isix.Cache
