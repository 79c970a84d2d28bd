import Isix.Lib.Word
import Mathlib.Algebra.Order.BigOperators.Group.List
import Mathlib.Algebra.Order.Ring.Int
import Mathlib.Data.List.DropRight
import Mathlib.Data.Nat.Bitwise

/-!
# Isix.Foundation.Numeric

Two small algorithms of libfoundation: the integer square root
(`dsp/sqrt_int.hpp`) and the moving average (`algo/simple_moving_average.hpp`).
-/

namespace Isix.Foundation

open Word

/-! ## the integer square root -/

namespace SqrtInt

variable {m : Type → Type} [Monad m]

/-- The loop of `dsp::integer::sqrt`: the bit `c` of the guess `g` stays if the
square of the guess is not too large. -/
def sqrtLoop (ar : Arith m) (n c g : Nat) : m Nat := do
  let square ← ar.mul 32 g g
  let g := if n < square then g ^^^ c else g
  if h : c / 2 = 0 then pure g else sqrtLoop ar n (c / 2) (g ||| c / 2)
termination_by c
decreasing_by omega

/-- `dsp::integer::sqrt` -/
def sqrt (ar : Arith m) (n : UInt32) : m Nat := sqrtLoop ar n.toNat 0x8000 0x8000

variable {n k b : Nat}

/-- The guess is a number `b` without the bits up to `k`, and the bit `k`. -/
theorem or_eq_add (hb : 2 ^ (k + 1) ∣ b) : b ||| 2 ^ k = b + 2 ^ k := by
  obtain ⟨a, rfl⟩ := hb
  exact (Nat.two_pow_add_eq_or_of_lt (Nat.pow_lt_pow_succ Nat.one_lt_two) a).symm

theorem or_xor_cancel (hb : 2 ^ (k + 1) ∣ b) : (b ||| 2 ^ k) ^^^ 2 ^ k = b := by
  obtain ⟨a, rfl⟩ := hb
  apply Nat.eq_of_testBit_eq
  intro i
  by_cases hi : k = i <;> simp [hi, Nat.testBit_two_pow_mul]

theorem two_pow_succ (k : Nat) : 2 ^ (k + 1) = 2 ^ k + 2 ^ k := by
  rw [Nat.pow_succ, Nat.mul_two]

theorem square_lt (hb : 2 ^ (k + 1) ∣ b) (hk : b + 2 ^ (k + 1) ≤ 2 ^ 16) :
    (b ||| 2 ^ k) * (b ||| 2 ^ k) < 2 ^ 32 := by
  have hlt : b + 2 ^ k < 2 ^ 16 := (Nat.add_lt_add_left (Nat.pow_lt_pow_succ Nat.one_lt_two) b).trans_le hk
  rw [or_eq_add hb, show 2 ^ 32 = 2 ^ 16 * 2 ^ 16 from rfl]
  exact Nat.mul_lt_mul'' hlt hlt

/-- One round halves the interval the root is in. -/
theorem round_spec (hb : 2 ^ (k + 1) ∣ b) (hlo : b * b ≤ n)
    (hhi : n < (b + 2 ^ (k + 1)) * (b + 2 ^ (k + 1))) :
    ∃ b', (if n < (b ||| 2 ^ k) * (b ||| 2 ^ k) then (b ||| 2 ^ k) ^^^ 2 ^ k else b ||| 2 ^ k) = b' ∧
      2 ^ k ∣ b' ∧ b' * b' ≤ n ∧ n < (b' + 2 ^ k) * (b' + 2 ^ k) ∧
        b' + 2 ^ k ≤ b + 2 ^ (k + 1) := by
  have hdvd : 2 ^ k ∣ b := (Nat.pow_dvd_pow 2 (Nat.le_succ k)).trans hb
  rw [or_xor_cancel hb, or_eq_add hb, two_pow_succ, ← Nat.add_assoc] at *
  split
  next h => exact ⟨b, rfl, hdvd, hlo, h, by omega⟩
  next h => exact ⟨b + 2 ^ k, rfl, Nat.dvd_add hdvd (Nat.dvd_refl _), not_lt.mp h, hhi, by omega⟩

/-- The loop at the bit `k`.  The root is between `b` and `b + 2 ^ (k + 1)`; all
guesses are below `2 ^ 16`, so their squares fit. -/
theorem sqrtLoop_computes (hb : 2 ^ (k + 1) ∣ b) (hlo : b * b ≤ n)
    (hhi : n < (b + 2 ^ (k + 1)) * (b + 2 ^ (k + 1))) (hk : b + 2 ^ (k + 1) ≤ 2 ^ 16) :
    ∃ g, Computes (fun _ _ ar => sqrtLoop ar n (2 ^ k) (b ||| 2 ^ k)) g ∧ g * g ≤ n ∧
      n < (g + 1) * (g + 1) := by
  induction k generalizing b with
  | zero =>
    obtain ⟨g, hg', -, hlo', hhi', -⟩ := round_spec hb hlo hhi
    refine ⟨g, fun m _ _ ar har => ?_, hlo', hhi'⟩
    show sqrtLoop ar n _ _ = _
    rw [sqrtLoop, har.mul (square_lt hb hk), pure_bind, hg']
    rfl
  | succ k ih =>
    obtain ⟨b', hb', hdvd, hlo', hhi', hle⟩ := round_spec hb hlo hhi
    obtain ⟨g, hc, hres⟩ := ih hdvd hlo' hhi' (hle.trans hk)
    refine ⟨g, fun m _ _ ar har => ?_, hres⟩
    have hhalf : 2 ^ (k + 1) / 2 = 2 ^ k := by rw [Nat.pow_succ, Nat.mul_div_left _ Nat.two_pos]
    show sqrtLoop ar n _ _ = _
    rw [sqrtLoop, har.mul (square_lt hb hk), pure_bind, hb', hhalf, dif_neg (Nat.two_pow_pos k).ne']
    exact hc m ar har

/-- **The integer square root is exact**: it ends, no square overflows, and the
result is the largest number whose square is not above `n`. -/
theorem sqrt_exact (n : UInt32) : ∃ g, sqrt checked n = some g ∧ sqrt wrapping n = g ∧
    g * g ≤ n.toNat ∧ ∀ x, x * x ≤ n.toNat → x ≤ g := by
  obtain ⟨g, hc, hlo, hhi⟩ := sqrtLoop_computes (k := 15) (Nat.dvd_zero _)
    (by omega) n.toNat_lt (by decide)
  refine ⟨g, hc.checked, hc.wrapping, hlo, fun x hx => ?_⟩
  by_contra hgt
  exact absurd (hhi.trans_le ((Nat.mul_le_mul (not_le.mp hgt) (not_le.mp hgt)).trans hx)) (lt_irrefl _)

end SqrtInt

/-! ## the moving average -/

/-- The range of an integer type. -/
structure IntType where
  lo : Int
  hi : Int
  lo_le : lo ≤ 0
  le_hi : 1 ≤ hi

namespace IntType

def In (t : IntType) (x : Int) : Prop := t.lo ≤ x ∧ x ≤ t.hi

/-- Conversion to the type. -/
def conv (t : IntType) (x : Int) : Int := (x - t.lo) % (t.hi - t.lo + 1) + t.lo

theorem conv_eq {t : IntType} {x : Int} (h : t.In x) : t.conv x = x := by
  rw [conv, Int.emod_eq_of_lt (sub_nonneg.mpr h.1) (by have := h.2; omega), sub_add_cancel]

/-- No sum of `p` samples of type `t` overflows in the type `a`. -/
def Sums (t a : IntType) (p : Nat) : Prop :=
  ∀ l : List Int, l.length = p → (∀ x ∈ l, t.In x) → a.In l.sum

variable {t a : IntType} {p : Nat}

/-- Nor does a sum of fewer samples. -/
theorem Sums.of_le (h : t.Sums a p) {l : List Int} (hp : l.length ≤ p) (hl : ∀ x ∈ l, t.In x) :
    a.In l.sum := by
  have := h (l ++ List.replicate (p - l.length) 0) (by simp; omega) fun x hx => by
    rcases List.mem_append.mp hx with hx | hx
    · exact hl x hx
    · rw [List.eq_of_mem_replicate hx]
      exact ⟨t.lo_le, by have := t.le_hi; omega⟩
  simpa using this

theorem Sums.card (h : t.Sums a p) {n : Nat} (hn : n ≤ p) : a.In n := by
  have := h.of_le (l := List.replicate n 1) (by simpa using hn) fun x hx => by
    rw [List.eq_of_mem_replicate hx]
    exact ⟨t.lo_le.trans zero_le_one, t.le_hi⟩
  simpa using this

/-- The average of samples is in their range. -/
theorem in_average {l : List Int} (hl : ∀ x ∈ l, t.In x) : t.In (l.sum.tdiv l.length) := by
  have hlo := l.card_nsmul_le_sum t.lo fun x hx => (hl x hx).1
  have hhi := l.sum_le_card_nsmul t.hi fun x hx => (hl x hx).2
  rw [nsmul_eq_mul, mul_comm] at hlo hhi
  have h0 := t.lo_le
  have h1 := t.le_hi
  rcases Nat.eq_zero_or_pos l.length with hz | hpos
  · simp [hz, In]
    omega
  rcases le_total 0 l.sum with hs | hs
  · rw [Int.tdiv_eq_ediv_of_nonneg hs]
    exact ⟨h0.trans (Int.ediv_nonneg hs (by omega)), Int.ediv_le_of_le_mul (by omega) hhi⟩
  · have hneg : l.sum.tdiv l.length = -(-l.sum / l.length) := by
      rw [← Int.tdiv_eq_ediv_of_nonneg (by omega), Int.neg_tdiv, neg_neg]
    have hle : -l.sum / l.length ≤ -t.lo := Int.ediv_le_of_le_mul (by omega) (by rw [neg_mul]; omega)
    have hnn : 0 ≤ -l.sum / l.length := Int.ediv_nonneg (by omega) (by omega)
    rw [hneg]
    exact ⟨by omega, by omega⟩

end IntType

open Function (update)

/-- `fnd::algo::sma`; `ends` are `head` and `tail`, which are `nullptr` together.
The pointers are positions in `window`. -/
structure Sma where
  period : Nat
  window : Nat → Int
  ends : Option (Nat × Nat)
  total : Int

namespace Sma

/-- `sma::sma` and `sma::resize`; `mem` is what the new block happens to hold. -/
def create (period : Nat) (mem : Nat → Int) : Sma := ⟨period, mem, none, 0⟩

/-- `sma::clear` -/
def clear (s : Sma) : Sma := { s with ends := none, total := 0 }

/-- `sma::inc` -/
def inc (period p : Nat) : Nat × Bool := if period ≤ p + 1 then (0, true) else (p + 1, false)

/-- `sma::operator()`, with `conv` what the accumulator type makes of a result -/
def add (conv : Int → Int) (s : Sma) (val : Int) : Sma × Bool :=
  match s.ends with
  | none =>
    let (tail, cycle) := inc s.period 0
    ({ s with window := update s.window 0 val, ends := some (0, tail), total := conv val }, cycle)
  | some (head, tail) =>
    let (first, total) :=
      if head = tail then ((inc s.period head).1, conv (s.total - s.window head))
      else (head, s.total)
    let (last, cycle) := inc s.period tail
    ({ s with
        window := update s.window tail val
        ends := some (first, last)
        total := conv (total + val) }, cycle)

/-- `sma::size` -/
def size (s : Sma) : Int :=
  match s.ends with
  | none => 0
  | some (head, tail) => if head = tail then s.period else (s.period + tail - head) % s.period

/-- `sma::operator T`, with `t` the type of the samples -/
def average (t a : IntType) (s : Sma) : Int :=
  if s.size = 0 then 0 else t.conv (s.total.tdiv (a.conv s.size))

/-- `sma::full_period` -/
def fullPeriod (s : Sma) : Bool := s.size == s.period

inductive Op where
  | add (val : Int)
  | clear
  | resize (period : Nat) (mem : Nat → Int)

def exec (conv : Int → Int) (s : Sma) : Op → Sma
  | .add val => (s.add conv val).1
  | .clear => s.clear
  | .resize period mem => create period mem

/-- The samples are of their type, and sums of a period fit. -/
def Op.Fits (t a : IntType) : Op → Prop
  | .add val => t.In val
  | .clear => True
  | .resize period _ => 1 ≤ period ∧ t.Sums a period

/-- The period, and the samples since the start, `clear` or `resize`. -/
def history : Nat × List Int → Op → Nat × List Int
  | (p, l), .add val => (p, l ++ [val])
  | (p, _), .clear => (p, [])
  | _, .resize period _ => (period, [])

/-- A ring that has got the samples `l`. -/
structure Holds (p : Nat) (l : List Int) (s : Sma) : Prop where
  period : s.period = p
  ends : s.ends = if l = [] then none else
    some (if l.length < p then 0 else l.length % p, l.length % p)
  cells : ∀ i < l.length, l.length ≤ i + p → l[i]? = some (s.window (i % p))
  total : s.total = (l.rtake p).sum

variable {t a : IntType} {p : Nat} {l : List Int} {s : Sma} {v : Int}

theorem inc_mod (hp : 1 ≤ p) (n : Nat) : inc p (n % p) = ((n + 1) % p, decide (p ∣ n + 1)) := by
  have hlt := Nat.mod_lt n hp
  have hn := Nat.mod_add_mod n p 1
  unfold inc
  split
  next h =>
    rw [show n % p + 1 = p by omega, Nat.mod_self] at hn
    simp [← hn, Nat.dvd_of_mod_eq_zero hn.symm]
  next h =>
    rw [Nat.mod_eq_of_lt (by omega)] at hn
    simp [← hn, Nat.dvd_iff_mod_eq_zero]

namespace Holds

theorem init (p : Nat) (mem : Nat → Int) : Holds p [] (create p mem) where
  period := rfl
  ends := rfl
  cells _ hi := absurd hi (Nat.not_lt_zero _)
  total := by simp [create]

section

variable (h : Holds p l s)

include h

/-- Another sample is written behind the others, over the oldest one when the
ring is full. -/
theorem cells_add (i : Nat) (hi : i < l.length + 1) (hp : l.length + 1 ≤ i + p) :
    (l ++ [v])[i]? = some (update s.window (l.length % p) v (i % p)) := by
  rcases Nat.lt_succ_iff_lt_or_eq.mp hi with hlt | rfl
  · have hne : i % p ≠ l.length % p := fun he => by
      have hz := Nat.sub_mod_eq_zero_of_mod_eq he.symm
      rw [Nat.mod_eq_of_lt (by omega)] at hz
      omega
    rw [List.getElem?_append_left hlt, Function.update_of_ne hne, h.cells i hlt (by omega)]
  · simp

/-- The total while the ring is not full. -/
theorem total_add (hlt : l.length < p) :
    s.total + v = ((l ++ [v]).rtake p).sum := by
  rw [h.total, List.rtake, List.rtake, Nat.sub_eq_zero_of_le hlt.le, Nat.sub_eq_zero_of_le (by simpa using Nat.succ_le_of_lt hlt)]
  simp

/-- The oldest sample is where the next one goes, and leaves the total. -/
theorem total_sub (hp : 1 ≤ p) (hle : p ≤ l.length) :
    s.total - s.window (l.length % p) = (l.rtake (p - 1)).sum := by
  have hold := h.cells (l.length - p) (by omega) (by omega)
  rw [← Nat.add_mod_right, Nat.sub_add_cancel hle] at hold
  obtain ⟨hi, hold⟩ := List.getElem?_eq_some_iff.mp hold
  rw [h.total, List.rtake, List.rtake, List.drop_eq_getElem_cons hi, hold,
    show l.length - (p - 1) = l.length - p + 1 by omega]
  simp

/-- What an addition leaves. -/
theorem add_eq (hp : 1 ≤ p) (hs : t.Sums a p) (hl : ∀ x ∈ l ++ [v], t.In x) :
    s.add a.conv v = (⟨p, update s.window (l.length % p) v,
      some (if l.length + 1 < p then 0 else (l.length + 1) % p, (l.length + 1) % p),
      ((l ++ [v]).rtake p).sum⟩, decide (p ∣ l.length + 1)) := by
  have hrtake {k : Nat} {l' : List Int} (hk : k ≤ p) (hl' : ∀ x ∈ l', t.In x) : a.In (l'.rtake k).sum :=
    hs.of_le (by simp [List.rtake]; omega) fun x hx => hl' x (List.mem_of_mem_drop hx)
  have hsum := IntType.conv_eq (hrtake (Nat.le_refl p) hl)
  have hinc := inc_mod hp l.length
  -- behind the last cell of the first turn the head is where the tail is
  have hfirst : l.length < p → (if l.length + 1 < p then 0 else (l.length + 1) % p) = 0 := fun hlt => by
    split
    · rfl
    · rw [show l.length + 1 = p by omega, Nat.mod_self]
  unfold Sma.add
  rw [h.ends, h.period]
  by_cases hlt : l.length < p
  · rw [hfirst hlt, ← hsum, ← h.total_add hlt]
    rw [Nat.mod_eq_of_lt hlt] at hinc ⊢
    rcases eq_or_ne l [] with rfl | hne
    · simp_all [h.total]
    · simp [hlt, hne, hinc, (List.length_pos_of_ne_nil hne).ne]
  · have hrest := h.total_sub hp (not_lt.mp hlt)
    have hne : l ≠ [] := by rintro rfl; simp at hlt; omega
    have hlast : (l.rtake (p - 1)).sum + v = ((l ++ [v]).rtake p).sum := by
      obtain ⟨q, rfl⟩ := Nat.exists_eq_add_of_le' hp
      simp [List.rtake_concat_succ]
    rw [if_neg (show ¬l.length + 1 < p by omega)]
    simp [hne, hlt, hinc, hrest, IntType.conv_eq (hrtake (Nat.sub_le p 1) fun x hx =>
      hl x (List.mem_append_left _ hx)), hlast, hsum]

theorem add (hp : 1 ≤ p) (hs : t.Sums a p) (hl : ∀ x ∈ l ++ [v], t.In x) :
    Holds p (l ++ [v]) (s.add a.conv v).1 := by
  rw [h.add_eq hp hs hl]
  exact ⟨rfl, by simp, by simpa using h.cells_add, rfl⟩

theorem size_eq (hp : 1 ≤ p) : s.size = min l.length p := by
  unfold size
  rw [h.ends, h.period]
  by_cases hlt : l.length < p
  · rcases eq_or_ne l [] with rfl | hne
    · simp
    · have hpos := List.length_pos_of_ne_nil hne
      rw [if_neg hne, if_pos hlt, Nat.mod_eq_of_lt hlt]
      simp only [if_neg hpos.ne]
      rw [Nat.cast_zero, Int.sub_zero, Int.add_emod_left, Int.emod_eq_of_lt (by omega) (by omega)]
      omega
  · have hne : l ≠ [] := by rintro rfl; simp at hlt; omega
    simp [hne, hlt]
    omega

end

end Holds

/-- The state and the history agree along a run. -/
theorem holds_foldl {a t : IntType} (ops : List Op) {h : Nat × List Int} (hs : Holds h.1 h.2 s)
    (hp : 1 ≤ h.1 ∧ t.Sums a h.1) (hl : ∀ x ∈ h.2, t.In x) (hops : ∀ op ∈ ops, op.Fits t a) :
    let h' := ops.foldl history h
    Holds h'.1 h'.2 (ops.foldl (exec a.conv) s) ∧ (1 ≤ h'.1 ∧ t.Sums a h'.1) ∧ ∀ x ∈ h'.2, t.In x := by
  induction ops generalizing s h with
  | nil => exact ⟨hs, hp, hl⟩
  | cons op ops ih =>
    have hop := hops op List.mem_cons_self
    rw [List.foldl_cons, List.foldl_cons]
    have hrest : ∀ op ∈ ops, op.Fits t a := fun op hop => hops op (List.mem_cons_of_mem _ hop)
    cases op with
    | add val =>
      have hl' : ∀ x ∈ h.2 ++ [val], t.In x := by
        simpa [or_imp, forall_and] using ⟨hl, hop⟩
      exact ih (hs.add hp.1 hp.2 hl') hp hl' hrest
    | clear =>
      have hclear : Holds h.1 [] s.clear := hs.period ▸ Holds.init s.period s.window
      exact ih hclear hp (by simp [history]) hrest
    | resize period mem => exact ih (.init period mem) hop (by simp [history]) hrest

/-- **The moving average**: with samples and an accumulator of integer types, after
any additions, `clear` and `resize`, with `l` the samples since the last of these
and `p` the period, the total is the sum of the last `p` samples, the value is
their average, the ring is full from the `p`-th sample on, and each `p`-th
addition ends a cycle. -/
theorem sma_averages (t a : IntType) (period : Nat) (mem : Nat → Int) (ops : List Op)
    (hp : 1 ≤ period) (hs : t.Sums a period) (hops : ∀ op ∈ ops, op.Fits t a) :
    let s := ops.foldl (exec a.conv) (create period mem)
    let (p, l) := ops.foldl history (period, [])
    s.total = (l.rtake p).sum ∧
      s.average t a = (if l = [] then 0 else s.total.tdiv (min l.length p : Nat)) ∧
      (s.fullPeriod = true ↔ p ≤ l.length) ∧
      ∀ val, t.In val → ((s.add a.conv val).2 = true ↔ p ∣ l.length + 1) := by
  have hfold := holds_foldl ops (.init period mem) (h := (period, [])) ⟨hp, hs⟩ (by simp) hops
  intro s
  generalize ops.foldl history (period, []) = h' at hfold
  obtain ⟨p, l⟩ := h'
  obtain ⟨h, ⟨hp', hs'⟩, hl⟩ := hfold
  have hsize : s.size = (min l.length p : Nat) := h.size_eq hp'
  refine ⟨h.total, ?_, ?_, fun val hval => ?_⟩
  · unfold average
    by_cases hne : l = []
    · simp [hne, hsize]
    · have hpos := List.length_pos_of_ne_nil hne
      have havg : t.In ((l.rtake p).sum.tdiv (min l.length p : Nat)) := by
        have hlen : (l.rtake p).length = min l.length p := by simp [List.rtake]; omega
        exact hlen ▸ IntType.in_average fun x hx => hl x (List.mem_of_mem_drop hx)
      rw [if_neg hne, if_neg (by omega), hsize, IntType.conv_eq (hs'.card (Nat.min_le_right _ _)), h.total,
        IntType.conv_eq havg]
  · rw [fullPeriod, beq_iff_eq, hsize, h.period]
    omega
  · rw [h.add_eq hp' hs' (by simpa [or_imp, forall_and] using ⟨hl, hval⟩)]
    simp

def int8 : IntType := ⟨-128, 127, by decide, by decide⟩

def int16 : IntType := ⟨-32768, 32767, by decide, by decide⟩

/-- Three additions to a ring of two. -/
theorem sma_averages_bytes : ∃ s : Sma, s = [Op.add 100, .add 50, .add 30].foldl (exec int16.conv) (create 2 0) ∧
    s.total = 80 ∧ s.average int8 int16 = 40 := by
  have hsums : int8.Sums int16 2 := fun l hl hx => by
    obtain ⟨x, y, rfl⟩ := List.length_eq_two.mp hl
    simp [IntType.In, int8, int16] at hx ⊢
    omega
  obtain ⟨htotal, havg, -⟩ := sma_averages int8 int16 2 0 [.add 100, .add 50, .add 30] (by decide) hsums
    (by simp [Op.Fits, IntType.In, int8])
  exact ⟨_, rfl, htotal, havg⟩

/-- What `float` makes of an integer: 24 significant bits, the nearest and of two the even one. -/
def float (x : Int) : Int :=
  let ulp := 2 ^ (x.natAbs.log2 + 1 - 24)
  let q := x.natAbs / ulp
  let r := x.natAbs % ulp
  let near := if ulp < 2 * r ∨ 2 * r = ulp ∧ q % 2 = 1 then q + 1 else q
  x.sign * (near * ulp : Nat)

/-- With `float` the small samples are lost beside a large one, and still missing when it has left the ring. -/
theorem sma_float_drifts : ∃ s : Sma, s = [Op.add 100000000, .add 1, .add 1].foldl (exec float) (create 2 0) ∧
    (∀ x ∈ [100000000, 1], float x = x) ∧ s.total = 1 ∧ (([100000000, 1, 1] : List Int).rtake 2).sum = 2 :=
  ⟨_, rfl, by decide +kernel, by decide +kernel, by decide +kernel⟩

end Sma

end Isix.Foundation
