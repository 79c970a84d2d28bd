import Isix.Upcounter
import Mathlib.Algebra.BigOperators.Group.List.Basic
import Mathlib.Data.Nat.ModEq
import Mathlib.Tactic.Ring

/-!
# Isix.Properties.Upcounter

Ticks from an up counter do not drift.  The carry is what the cycles so far
leave over, so the ticks of one conversion are the difference of two floors and
their sum telescopes.  A quotient that fits 32 bits bounds the dividend by
`2 ^ 32 * freq`, which is below `2 ^ 64`: nothing overflows.
-/

namespace Isix

open Word (Arith Exact Computes)

variable {w freq hz : Nat}

/-! ## one conversion -/

/-- The samples of a counter of `w` bits that has run for `t` cycles when `gaps` pass. -/
def samples (w : Nat) : Nat → List Nat → List Nat
  | _, [] => []
  | t, g :: gs => (t + g) % 2 ^ w :: samples w (t + g) gs

/-- The masked difference is the number of cycles between two samples. -/
theorem isixpUpcounterElapsed_eq (hw : w ≤ 64) {t g : Nat} (hg : g < 2 ^ w) :
    isixpUpcounterElapsed ((t + g) % 2 ^ w) (t % 2 ^ w) (2 ^ w - 1) = g := by
  have hdvd : 2 ^ w ∣ 2 ^ 64 := Nat.pow_dvd_pow 2 hw
  have hlast : t % 2 ^ w < 2 ^ w := Nat.mod_lt _ (Nat.two_pow_pos w)
  have hpow : 2 ^ w ≤ 2 ^ 64 := Nat.le_of_dvd (Nat.two_pow_pos 64) hdvd
  have hback : (t + g) % 2 ^ w + (2 ^ 64 - t % 2 ^ w) + t % 2 ^ w ≡ g + t % 2 ^ w [MOD 2 ^ w] := by
    calc (t + g) % 2 ^ w + (2 ^ 64 - t % 2 ^ w) + t % 2 ^ w
        = (t + g) % 2 ^ w + 2 ^ 64 := by omega
      _ ≡ t + g + 0 [MOD 2 ^ w] := (Nat.mod_modEq _ _).add ((Nat.modEq_zero_iff_dvd).mpr hdvd)
      _ = g + t := by omega
      _ ≡ g + t % 2 ^ w [MOD 2 ^ w] := (Nat.ModEq.refl g).add (Nat.mod_modEq t _).symm
  have hmod : (t + g) % 2 ^ w + (2 ^ 64 - t % 2 ^ w) ≡ g [MOD 2 ^ w] := Nat.ModEq.add_right_cancel' _ hback
  unfold isixpUpcounterElapsed
  rw [Nat.and_two_pow_sub_one_eq_mod, Nat.mod_mod_of_dvd _ hdvd]
  exact Nat.mod_eq_of_modEq hmod hg

/-- The cycles so far with those of the next gap. -/
theorem carry_step (t g : Nat) :
    ((t + g) * hz) / freq = t * hz / freq + (g * hz + t * hz % freq) / freq ∧
      (g * hz + t * hz % freq) % freq = (t + g) * hz % freq := by
  have hsum : (t + g) * hz = freq * (t * hz / freq) + (g * hz + t * hz % freq) := by
    have := Nat.div_add_mod (t * hz) freq
    rw [Nat.add_mul]
    omega
  rw [hsum]
  rcases Nat.eq_zero_or_pos freq with rfl | hpos
  · simp
  · exact ⟨by rw [Nat.mul_add_div hpos], by rw [Nat.mul_add_mod]⟩

/-- A conversion with the carry of the cycles before it. -/
theorem isixpUpcounterTicks_computes (hf : freq < 2 ^ 32) (hpos : 1 ≤ freq) {t g : Nat}
    (hq : (g * hz + t * hz % freq) / freq < 2 ^ 32) :
    Computes (fun _ _ ar => isixpUpcounterTicks ar g freq hz (t * hz % freq))
      ((g * hz + t * hz % freq) / freq, (t + g) * hz % freq) := by
  intro m _ _ ar har
  have htotal : g * hz + t * hz % freq < 2 ^ 64 := by
    have hlt : g * hz + t * hz % freq < 2 ^ 32 * freq := (Nat.div_lt_iff_lt_mul hpos).mp hq
    have hle : 2 ^ 32 * freq ≤ 2 ^ 32 * 2 ^ 32 := Nat.mul_le_mul_left _ (Nat.le_of_lt hf)
    exact Nat.lt_of_lt_of_le hlt hle
  unfold isixpUpcounterTicks
  dsimp only
  rw [har.mul (by omega), pure_bind, har.add htotal, pure_bind, (carry_step t g).2]
  unfold toTick
  rw [show tickMod = 2 ^ 32 by decide, Nat.mod_eq_of_lt hq]

/-! ## sequences of samples -/

/-- The ticks of every conversion, and the carry behind it. -/
def conversions (freq hz : Nat) : Nat → List Nat → List (Nat × Nat)
  | _, [] => []
  | t, g :: gs => ((g * hz + t * hz % freq) / freq, (t + g) * hz % freq) :: conversions freq hz (t + g) gs

/-- The quotients of the conversions, exact, are tick values. -/
def QuotientsFit (freq hz : Nat) (gaps : List Nat) : Prop :=
  ∀ before g after, gaps = before ++ g :: after → (g * hz + before.sum * hz % freq) / freq < 2 ^ 32

theorem convert_computes (hw : w ≤ 64) (hf : freq < 2 ^ 32) (hpos : 1 ≤ freq) (start : Nat) (gaps before : List Nat)
    (hgap : ∀ g ∈ gaps, g < 2 ^ w) (hq : QuotientsFit freq hz (before ++ gaps)) :
    Computes (fun _ _ ar => convert ar (2 ^ w - 1) freq hz ((start + before.sum) % 2 ^ w) (before.sum * hz % freq)
      (samples w (start + before.sum) gaps)) (conversions freq hz before.sum gaps) := by
  induction gaps generalizing before with
  | nil => exact fun m _ _ ar _ => rfl
  | cons g gs ih =>
    intro m _ _ ar har
    have hstep := isixpUpcounterTicks_computes hf hpos (hq before g gs rfl) m ar har
    -- the rest begins where this gap ends
    have hrest := ih (before ++ [g]) (fun x hx => hgap x (List.mem_cons_of_mem g hx))
      (by rw [List.append_assoc]; exact hq) m ar har
    rw [List.sum_append, List.sum_singleton, ← Nat.add_assoc] at hrest
    unfold samples convert conversions
    dsimp only at hstep hrest ⊢
    rw [isixpUpcounterElapsed_eq hw (hgap g List.mem_cons_self), hstep, pure_bind]
    rw [hrest, pure_bind]

theorem sum_conversions (t : Nat) (gaps : List Nat) :
    ((conversions freq hz t gaps).map Prod.fst).sum + t * hz / freq = (t + gaps.sum) * hz / freq := by
  induction gaps generalizing t with
  | nil => simp [conversions]
  | cons g gs ih =>
    have hstep : (t + g) * hz / freq = t * hz / freq + (g * hz + t * hz % freq) / freq := (carry_step t g).1
    have hrest := ih (t + g)
    rw [conversions, List.map_cons, List.sum_cons, List.sum_cons]
    rw [← Nat.add_assoc t g, ← hrest, hstep]
    omega

theorem carry_lt (hpos : 1 ≤ freq) (t : Nat) (gaps : List Nat) : ∀ p ∈ conversions freq hz t gaps, p.2 < freq := by
  induction gaps generalizing t with
  | nil => simp [conversions]
  | cons g gs ih =>
    intro p hp
    rcases List.mem_cons.mp hp with rfl | hp
    · exact Nat.mod_lt _ hpos
    · exact ih (t + g) p hp

/-! ## the longest timeout -/

/-- Whole and broken part of a quotient. -/
theorem split_quotient (hpos : 1 ≤ freq) (half : Nat) :
    half / freq * hz + half % freq * hz / freq = half * hz / freq := by
  have hsum : half * hz = freq * (half / freq * hz) + half % freq * hz := by
    have := Nat.div_add_mod half freq
    calc half * hz = (freq * (half / freq) + half % freq) * hz := by rw [this]
      _ = freq * (half / freq * hz) + half % freq * hz := by ring
  rw [hsum, Nat.mul_add_div hpos]

theorem isixpUpcounterMaxTicks_computes (hpos : 1 ≤ freq) (hhz : 1 ≤ hz) (mask : Nat) :
    ∃ half, half ≤ mask / 2 ∧ Computes (fun _ _ ar => isixpUpcounterMaxTicks ar mask freq hz)
      (min (0xFFFFFFFF / 2) (half * hz / freq)) := by
  refine ⟨if uint64Max / hz < mask / 2 then uint64Max / hz else mask / 2, by split <;> omega, ?_⟩
  generalize hhalf : (if uint64Max / hz < mask / 2 then uint64Max / hz else mask / 2) = half
  intro m _ _ ar har
  have hfit : half * hz ≤ uint64Max := by
    have hle : half ≤ uint64Max / hz := by
      rw [← hhalf]
      split <;> omega
    exact (Nat.le_div_iff_mul_le hhz).mp hle
  have hmax : uint64Max < 2 ^ 64 := by decide
  have hwhole : half / freq * hz ≤ half * hz := Nat.mul_le_mul_right _ (Nat.div_le_self _ _)
  have hbroken : half % freq * hz ≤ half * hz := Nat.mul_le_mul_right _ (Nat.mod_le _ _)
  have hquot : half * hz / freq ≤ half * hz := Nat.div_le_self _ _
  have hsplit : half / freq * hz + half % freq * hz / freq = half * hz / freq := split_quotient hpos half
  unfold isixpUpcounterMaxTicks
  dsimp only
  rw [hhalf, har.mul (by omega), pure_bind, har.mul (by omega), pure_bind, har.add (by omega), pure_bind, hsplit]
  congr 1
  unfold toTick
  rw [show tickMod = 2 ^ 32 by decide]
  generalize half * hz / freq = q
  split <;> omega

/-- The cycles of `t` ticks, rounded up, are not more than those the ticks were computed from. -/
theorem cycles_le (hpos : 1 ≤ freq) (hhz : 1 ≤ hz) {half t : Nat} (ht : t ≤ half * hz / freq) :
    (t * freq + (hz - 1)) / hz ≤ half := by
  have hle : t * freq ≤ half * hz := (Nat.le_div_iff_mul_le hpos).mp ht
  have hlt : t * freq + (hz - 1) < (half + 1) * hz := by
    rw [Nat.add_mul]
    omega
  exact Nat.le_of_lt_succ ((Nat.div_lt_iff_lt_mul hhz).mpr hlt)

/-- **No drift**: for every width, frequency and tick rate, and every sequence of samples less than one
turn of the counter apart whose exact quotients are tick values, the conversions compute without overflow,
their carries stay below the frequency and their ticks add up to the floor of all cycles; and the cycles of
any number of ticks up to the longest timeout, computed without overflow, are not more than half of the
range of the counter. -/
theorem upcounter_no_drift (w freq hz start : Nat) (gaps : List Nat) (hw : w ≤ 64) (hf : 1 ≤ freq) (hf' : freq < 2 ^ 32)
    (hhz : 1 ≤ hz) (hgap : ∀ g ∈ gaps, g < 2 ^ w) (hq : QuotientsFit freq hz gaps) :
    (∃ results : List (Nat × Nat),
      Computes (fun _ _ ar => convert ar (2 ^ w - 1) freq hz (start % 2 ^ w) 0 (samples w start gaps)) results ∧
      (results.map Prod.fst).sum = gaps.sum * hz / freq ∧ ∀ p ∈ results, p.2 < freq) ∧
    ∃ max : Nat, Computes (fun _ _ ar => isixpUpcounterMaxTicks ar (2 ^ w - 1) freq hz) max ∧
      ∀ t ≤ max, (t * freq + (hz - 1)) / hz ≤ (2 ^ w - 1) / 2 := by
  constructor
  · have hrun := convert_computes hw hf' hf start gaps [] hgap hq
    simp only [List.sum_nil, Nat.add_zero, Nat.zero_mul, Nat.zero_mod] at hrun
    have hsum : ((conversions freq hz 0 gaps).map Prod.fst).sum + 0 * hz / freq = (0 + gaps.sum) * hz / freq :=
      sum_conversions 0 gaps
    simp only [Nat.zero_mul, Nat.zero_div, Nat.add_zero, Nat.zero_add] at hsum
    exact ⟨_, hrun, hsum, carry_lt hf 0 gaps⟩
  · obtain ⟨half, hhalf, hmax⟩ := isixpUpcounterMaxTicks_computes hf hhz (2 ^ w - 1)
    refine ⟨_, hmax, fun t ht => ?_⟩
    exact Nat.le_trans (cycles_le hf hhz (Nat.le_trans ht (Nat.min_le_right _ _))) hhalf

/-- A counter of 16 bits at 32768 Hz, through its wrap. -/
theorem upcounter_sixteen_bits : ∃ results : List (Nat × Nat),
    Computes (fun _ _ ar => convert ar (2 ^ 16 - 1) 32768 1000 (65000 % 2 ^ 16) 0 (samples 16 65000 [32, 33, 60000]))
      results ∧ (results.map Prod.fst).sum = 1833 := by
  have hq : QuotientsFit 32768 1000 [32, 33, 60000] := by
    intro before g after h
    have hmem : g ∈ [32, 33, 60000] := by simp [h]
    have hg : g ≤ 60000 := by
      revert hmem
      simp only [List.mem_cons, List.not_mem_nil, or_false]
      omega
    omega
  obtain ⟨results, hrun, hsum, -⟩ :=
    (upcounter_no_drift 16 32768 1000 65000 [32, 33, 60000] (by decide) (by decide) (by decide) (by decide) (by decide) hq).1
  exact ⟨results, hrun, by rw [hsum]; decide⟩

end Isix
