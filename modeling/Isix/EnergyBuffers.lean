import Isix.Lib.Runs

/-!
# Isix.EnergyBuffers

The four sample buffers of a phase of the energy meter (`energy_phase_bufs`).
The sampling interrupt claims a free buffer for the voltage and one for the
current of a window and marks both ready at its end; `calculate` takes the first
ready buffer of each kind and frees them.  The interrupt can preempt `calculate`
at every access of `m_states`, which is a list of four states here.

`sampling` has the buffers the interrupt was given, `window` the window whose
samples are in a buffer, and `log` the windows of the two buffers of each call
of `do_calculate`, the newest first.
-/

namespace Isix.EnergyBuffers

open Function (update update_of_ne)
open Runs

inductive BufState
  | free
  | collectU
  | collectI
  | readyU
  | readyI
deriving DecidableEq, Repr

abbrev Bufs := List BufState

/-- `buf_stat::find` -/
def find (bufs : Bufs) (b : BufState) : Option Nat := bufs.findIdx? (· == b)

inductive Sampling
  | idle
  | begun (u : Nat)
  | collecting (u i : Nat)
  | endedU (u i : Nat)
  | endedI (u i : Nat)
deriving DecidableEq

/-- How far `calculate` is; `old` is what `sample_change_state_idx` has loaded. -/
inductive Pc
  | idle
  | found (ui ii : Nat)
  | freeU (ui ii : Nat) (old : Option Bufs)
  | freeI (ii : Nat) (old : Option Bufs)

structure State where
  bufs : Bufs := List.replicate 4 .free
  sampling : Sampling := .idle
  pc : Pc := .idle
  windows : Nat := 0
  window : Nat → Nat := fun _ => 0
  log : List (Nat × Nat) := []

inductive Event
  | sampleVoltageBegin
  | sampleCurrentBegin
  | sampleVoltageEnd
  | sampleCurrentEnd
  | calculate
  | doCalculate
  /-- `sample_change_state_idx` loads `m_states` -/
  | load
  /-- and compares it, which may also fail for no reason -/
  | exchange (fails : Bool)
deriving DecidableEq

/-- The interrupt gets the buffer `u` for the voltage of the next window. -/
def State.claimVoltage (s : State) (u : Nat) : State :=
  { s with
    bufs := s.bufs.set u .collectU
    sampling := .begun u
    window := update s.window u (s.windows + 1) }

def State.claimCurrent (s : State) (u i : Nat) : State :=
  { s with
    bufs := s.bufs.set i .collectI
    sampling := .collecting u i
    windows := s.windows + 1
    window := update s.window i (s.windows + 1) }

def step : Event → State → Option State
  | .sampleVoltageBegin, s =>
    match s.sampling, find s.bufs .free with
    | .idle, none => some s
    | .idle, some u => some (s.claimVoltage u)
    | _, _ => none
  | .sampleCurrentBegin, s =>
    -- a window has both buffers or neither
    match s.sampling, find s.bufs .free with
    | .begun u, some i => some (s.claimCurrent u i)
    | _, _ => none
  | .sampleVoltageEnd, s =>
    match s.sampling, find s.bufs .collectU with
    | .collecting u i, some k => some { s with bufs := s.bufs.set k .readyU, sampling := .endedU u i }
    | .endedI _ _, some k => some { s with bufs := s.bufs.set k .readyU, sampling := .idle }
    | _, _ => none
  | .sampleCurrentEnd, s =>
    match s.sampling, find s.bufs .collectI with
    | .collecting u i, some k => some { s with bufs := s.bufs.set k .readyI, sampling := .endedI u i }
    | .endedU _ _, some k => some { s with bufs := s.bufs.set k .readyI, sampling := .idle }
    | _, _ => none
  | .calculate, s =>
    match s.pc, find s.bufs .readyU, find s.bufs .readyI with
    | .idle, some ui, some ii => some { s with pc := .found ui ii }
    | .idle, _, _ => some s
    | _, _, _ => none
  | .doCalculate, s =>
    match s.pc with
    | .found ui ii => some { s with pc := .freeU ui ii none, log := (s.window ui, s.window ii) :: s.log }
    | _ => none
  | .load, s =>
    match s.pc with
    | .freeU ui ii none => some { s with pc := .freeU ui ii (some s.bufs) }
    | .freeI ii none => some { s with pc := .freeI ii (some s.bufs) }
    | _ => none
  | .exchange fails, s =>
    match s.pc with
    | .freeU ui ii (some old) =>
      if s.bufs = old ∧ ¬fails then some { s with pc := .freeI ii none, bufs := s.bufs.set ui .free }
      else some { s with pc := .freeU ui ii none }
    | .freeI ii (some old) =>
      if s.bufs = old ∧ ¬fails then some { s with pc := .idle, bufs := s.bufs.set ii .free }
      else some { s with pc := .freeI ii none }
    | _ => none

def Step (e : Event) (s s' : State) : Prop := step e s = some s'

/-! ## marked buffers -/

/-- The buffers that are not free, each with its state. -/
structure Marked (bufs : Bufs) (l : List (Nat × BufState)) : Prop where
  mem_iff : ∀ {k b}, (k, b) ∈ l ↔ bufs[k]? = some b ∧ b ≠ .free
  apart : (l.map Prod.fst).Nodup

theorem find_some {bufs : Bufs} {b : BufState} {k : Nat} (h : find bufs b = some k) : bufs[k]? = some b := by
  obtain ⟨hk, hb, -⟩ := List.findIdx?_eq_some_iff_getElem.mp h
  rw [List.getElem?_eq_getElem hk, eq_of_beq hb]

namespace Marked

variable {bufs : Bufs} {l l' : List (Nat × BufState)} {k : Nat} {b b' : BufState}

theorem perm (h : Marked bufs l) (hl : l.Perm l') : Marked bufs l' :=
  ⟨hl.mem_iff.symm.trans h.mem_iff, (hl.map _).nodup_iff.mp h.apart⟩

theorem found (h : Marked bufs l) (hk : find bufs b = some k) (hb : b ≠ .free) : (k, b) ∈ l :=
  h.mem_iff.mpr ⟨find_some hk, hb⟩

theorem not_mem_of_free (h : Marked bufs l) (hk : bufs[k]? = some .free) : k ∉ l.map Prod.fst := by
  intro hmem
  obtain ⟨⟨k, b⟩, hb, rfl⟩ := List.mem_map.mp hmem
  obtain ⟨hb, hne⟩ := h.mem_iff.mp hb
  rw [hk] at hb
  exact hne (Option.some.inj hb).symm

/-- A free buffer is claimed. -/
theorem claim (h : Marked bufs l) (hk : bufs[k]? = some .free) (hb : b ≠ .free) :
    Marked (bufs.set k b) ((k, b) :: l) := by
  have hnot := h.not_mem_of_free hk
  refine ⟨?_, List.nodup_cons.mpr ⟨hnot, h.apart⟩⟩
  intro k' b'
  have hlt : k < bufs.length := (List.getElem?_eq_some_iff.mp hk).1
  by_cases hkk : k = k'
  · subst hkk
    have hl : (k, b') ∉ l := fun hmem => hnot (List.mem_map_of_mem hmem)
    simp only [List.mem_cons, hl, List.getElem?_set_self hlt, Prod.mk.injEq, Option.some.injEq]
    grind
  · simp [List.getElem?_set_ne hkk, Ne.symm hkk, h.mem_iff]

/-- A buffer is given back. -/
theorem release (h : Marked bufs ((k, b) :: l)) : Marked (bufs.set k .free) l := by
  obtain ⟨hnot, hapart⟩ := List.nodup_cons.mp h.apart
  refine ⟨?_, hapart⟩
  intro k' b'
  by_cases hkk : k = k'
  · subst hkk
    have hl : (k, b') ∉ l := fun hmem => hnot (List.mem_map.mpr ⟨_, hmem, rfl⟩)
    have hlt := (List.getElem?_eq_some_iff.mp (h.mem_iff.mp (List.mem_cons_self ..)).1).1
    simp only [hl, List.getElem?_set_self hlt, Option.some.injEq]
    grind
  · rw [List.getElem?_set_ne hkk, ← h.mem_iff]
    simp [Ne.symm hkk]

/-- A buffer changes its state. -/
theorem change (h : Marked bufs ((k, b) :: l)) (hb : b' ≠ .free) : Marked (bufs.set k b') ((k, b') :: l) := by
  have hlt := (List.getElem?_eq_some_iff.mp (h.mem_iff.mp (List.mem_cons_self ..)).1).1
  rw [← List.set_set .free]
  exact h.release.claim (List.getElem?_set_self hlt) hb

/-- The first buffer in the state `b` is the only one. -/
theorem change_first {u : Nat} (h : Marked bufs (l ++ (u, b) :: l'))
    (hk : find bufs b = some k) (hb : b ≠ .free) (hb' : b' ≠ .free) (honly : ∀ x ∈ l ++ l', x.2 ≠ b) :
    Marked (bufs.set k b') (l ++ (u, b') :: l') := by
  have hu : k = u := by
    have hmem : (k, b) = (u, b) ∨ (k, b) ∈ l ++ l' := by simpa [or_left_comm] using h.found hk hb
    rcases hmem with he | hmem
    · exact congrArg Prod.fst he
    · exact absurd rfl (honly _ hmem)
  subst hu
  exact ((h.perm List.perm_middle).change hb').perm List.perm_middle.symm

end Marked

/-! ## who has which buffer -/

/-- The buffers of the window that is being sampled. -/
def Sampling.held : Sampling → List (Nat × BufState)
  | .idle => []
  | .begun u => [(u, .collectU)]
  | .collecting u i => [(u, .collectU), (i, .collectI)]
  | .endedU u i => [(u, .readyU), (i, .collectI)]
  | .endedI u i => [(u, .collectU), (i, .readyI)]

def Sampling.pair : Sampling → List (Nat × Nat)
  | .idle | .begun _ => []
  | .collecting u i | .endedU u i | .endedI u i => [(u, i)]

/-- The buffers `calculate` works on. -/
def Pc.busy : Pc → List (Nat × BufState)
  | .idle => []
  | .found ui ii | .freeU ui ii _ => [(ui, .readyU), (ii, .readyI)]
  | .freeI ii _ => [(ii, .readyI)]

/-- Those it has still to multiply. -/
def Pc.pair : Pc → List (Nat × Nat)
  | .found ui ii => [(ui, ii)]
  | _ => []

theorem Sampling.mem_held {p : Sampling} {u i : Nat} (h : (u, i) ∈ p.pair) :
    u ∈ p.held.map Prod.fst ∧ i ∈ p.held.map Prod.fst := by
  cases p <;> simp_all [pair, held]

theorem Pc.mem_busy {p : Pc} {u i : Nat} (h : (u, i) ∈ p.pair) :
    u ∈ p.busy.map Prod.fst ∧ i ∈ p.busy.map Prod.fst := by
  cases p <;> simp_all [pair, busy]

theorem Pc.busy_ready (p : Pc) : ∀ x ∈ p.busy, x.2 = .readyU ∨ x.2 = .readyI := by
  cases p <;> simp [busy]

/-- `calculate` keeps up: when a window ends, the windows before it are calculated, but for the one that `calculate`
works on. -/
def KeepsUp : Event → State → Prop
  | .sampleVoltageEnd, s | .sampleCurrentEnd, s =>
    ∀ b ∈ [BufState.readyU, .readyI], ∀ k ∈ List.range s.bufs.length,
      s.bufs[k]? = some b → (k, b) ∈ s.sampling.held ++ s.pc.busy
  | _, _ => True

/-- The window that waits for `calculate`. -/
abbrev Waiting := Option (Nat × Nat)

def Waiting.held (w : Waiting) : List (Nat × BufState) := w.toList.flatMap fun (u, i) => [(u, .readyU), (i, .readyI)]

/-- The windows that were sampled, the newest first, each with its two numbers. -/
def order (s : State) (w : Waiting) : List (Nat × Nat) :=
  (s.sampling.pair ++ w.toList ++ s.pc.pair).map (Prod.map s.window s.window) ++ s.log

structure Sound (s : State) (w : Waiting) : Prop where
  marked : Marked s.bufs (s.sampling.held ++ w.held ++ s.pc.busy)
  ending : ∀ u i, s.sampling = .endedU u i ∨ s.sampling = .endedI u i → w = none
  begun : ∀ u, s.sampling = .begun u → s.window u = s.windows + 1
  same : ∀ p ∈ order s w, p.1 = p.2 ∧ p.1 ≤ s.windows
  sorted : (order s w).Pairwise fun p q => q.1 < p.1

instance : ∀ e s, Decidable (KeepsUp e s)
  | .sampleVoltageEnd, _ | .sampleCurrentEnd, _ => inferInstanceAs (Decidable (∀ _ ∈ _, ∀ _ ∈ _, _ → _))
  | .sampleVoltageBegin, _ | .sampleCurrentBegin, _ | .calculate, _ | .doCalculate, _ | .load, _ | .exchange _, _ =>
    inferInstanceAs (Decidable True)

namespace Sound

variable {s s' : State} {w : Waiting}

theorem init : Sound {} none := by
  refine ⟨⟨?_, by simp [Sampling.held, Waiting.held, Pc.busy]⟩, by simp, by simp,
    fun _ hp => absurd hp List.not_mem_nil, .nil⟩
  simp [Sampling.held, Waiting.held, Pc.busy]
  grind

section

variable (h : Sound s w)

include h

/-- A free buffer is in no window. -/
theorem ne_of_free {k u i : Nat} (hk : s.bufs[k]? = some .free)
    (hp : (u, i) ∈ s.sampling.pair ++ w.toList ++ s.pc.pair) : u ≠ k ∧ i ≠ k := by
  have hnot := h.marked.not_mem_of_free hk
  have hmem : u ∈ (s.sampling.held ++ w.held ++ s.pc.busy).map Prod.fst ∧
      i ∈ (s.sampling.held ++ w.held ++ s.pc.busy).map Prod.fst := by
    simp only [List.mem_append, List.map_append] at hp ⊢
    rcases hp with (hp | hp) | hp
    · exact ⟨.inl (.inl (Sampling.mem_held hp).1), .inl (.inl (Sampling.mem_held hp).2)⟩
    · rw [Option.mem_toList.mp hp]
      simp [Waiting.held]
    · exact ⟨.inr (Pc.mem_busy hp).1, .inr (Pc.mem_busy hp).2⟩
  exact ⟨fun he => hnot (he ▸ hmem.1), fun he => hnot (he ▸ hmem.2)⟩

/-- It may get new samples. -/
theorem order_update {k n : Nat} (hk : s.bufs[k]? = some .free) :
    (s.sampling.pair ++ w.toList ++ s.pc.pair).map (Prod.map (update s.window k n) (update s.window k n)) =
      (s.sampling.pair ++ w.toList ++ s.pc.pair).map (Prod.map s.window s.window) := by
  apply List.map_congr_left
  rintro ⟨u, i⟩ hp
  obtain ⟨hu, hi⟩ := h.ne_of_free hk hp
  simp [update_of_ne hu, update_of_ne hi]

theorem voltageBegin {u : Nat} (hi : s.sampling = .idle) (hu : find s.bufs .free = some u) :
    Sound (s.claimVoltage u) w := by
  have hfree := find_some hu
  have hord := h.order_update (n := s.windows + 1) hfree
  have hmark := h.marked
  rw [hi] at hord hmark
  have horder : order (s.claimVoltage u) w = order s w := by
    simp only [order, State.claimVoltage, hi]
    exact congrArg (· ++ s.log) hord
  refine ⟨hmark.claim hfree (by simp), by simp [State.claimVoltage], ?_, ?_, ?_⟩
  · intro u' hu'
    cases hu'
    exact Function.update_self ..
  · rw [horder]
    exact h.same
  · rw [horder]
    exact h.sorted

theorem currentBegin {u i : Nat} (hu : s.sampling = .begun u) (hi : find s.bufs .free = some i) :
    Sound (s.claimCurrent u i) w := by
  have hfree := find_some hi
  have hord := h.order_update (n := s.windows + 1) hfree
  have hmark := h.marked
  have hbegun := h.begun u hu
  rw [hu] at hord hmark
  have hne : u ≠ i := by
    have hnot := hmark.not_mem_of_free hfree
    simp only [Sampling.held, List.cons_append, List.map_cons, List.mem_cons, not_or] at hnot
    exact Ne.symm hnot.1
  have horder : order (s.claimCurrent u i) w = (s.windows + 1, s.windows + 1) :: order s w := by
    simp only [order, State.claimCurrent, hu]
    rw [← hord]
    simp [Sampling.pair, update_of_ne hne, hbegun]
  refine ⟨(hmark.claim hfree (by simp)).perm (.swap ..), by simp [State.claimCurrent],
    by simp [State.claimCurrent], ?_, ?_⟩
  · rw [horder]
    intro p hp
    rcases List.mem_cons.mp hp with rfl | hp
    · exact ⟨rfl, le_rfl⟩
    · exact ⟨(h.same p hp).1, Nat.le_succ_of_le (h.same p hp).2⟩
  · rw [horder]
    exact List.pairwise_cons.mpr ⟨fun p hp => Nat.lt_succ_of_le (h.same p hp).2, h.sorted⟩

/-- A window that ends in time finds none waiting. -/
theorem none_waits (hc : ∀ b ∈ [BufState.readyU, .readyI], ∀ k ∈ List.range s.bufs.length,
    s.bufs[k]? = some b → (k, b) ∈ s.sampling.held ++ s.pc.busy) : w = none := by
  cases w with
  | none => rfl
  | some p =>
    obtain ⟨u, i⟩ := p
    have hmem : (u, BufState.readyU) ∈ s.sampling.held ++ Waiting.held (some (u, i)) ++ s.pc.busy := by
      simp [Waiting.held]
    have hu := (h.marked.mem_iff.mp hmem).1
    have hlt := (List.getElem?_eq_some_iff.mp hu).1
    have hin := hc .readyU (by simp) u (List.mem_range.mpr hlt) hu
    -- the buffer would be marked twice
    have hap := (h.marked.perm (List.Perm.append_right _ List.perm_append_comm)).apart
    simp only [Waiting.held, Option.toList_some, List.flatMap_singleton, List.cons_append, List.map_cons,
      List.nodup_cons, List.nil_append, List.mem_cons, not_or] at hap
    exact absurd (List.mem_map_of_mem hin) hap.1.2

/-- The windows are as before. -/
theorem of_order {w' : Waiting} (hm : Marked s'.bufs (s'.sampling.held ++ w'.held ++ s'.pc.busy))
    (he : ∀ u i, s'.sampling = .endedU u i ∨ s'.sampling = .endedI u i → w' = none)
    (hb : ∀ u, s'.sampling = .begun u → s'.window u = s'.windows + 1) (ho : order s' w' = order s w)
    (hn : s'.windows = s.windows) : Sound s' w' :=
  ⟨hm, he, hb, by rw [ho, hn]; exact h.same, by rw [ho]; exact h.sorted⟩

/-- One of the two conversions of a window ends; the second one makes the window wait. -/
theorem sampleEnd {e : Event} (he : e = .sampleVoltageEnd ∨ e = .sampleCurrentEnd) (hc : KeepsUp e s)
    (hs : Step e s s') : ∃ w', Sound s' w' := by
  have hbusy := s.pc.busy_ready
  rcases he with rfl | rfl <;> simp only [Step, EnergyBuffers.step] at hs
  all_goals
    obtain rfl : w = none := h.none_waits hc
    have hmark : Marked s.bufs (s.sampling.held ++ s.pc.busy) := by simpa [Waiting.held] using h.marked
    split at hs
    -- the buffer of the voltage is the first one of the window, that of the current the second
    next u i k hsamp hk =>
      cases hs
      simp only [hsamp, Sampling.held, List.cons_append, List.nil_append] at hmark
      refine ⟨none, h.of_order ?_ (fun _ _ _ => rfl) (by simp) (by simp [order, hsamp, Sampling.pair]) rfl⟩
      first
      | exact hmark.change_first (l := []) hk (by simp) (by simp) (by grind)
      | exact hmark.change_first (l := [_]) hk (by simp) (by simp) (by grind)
    next u i k hsamp hk =>
      cases hs
      simp only [hsamp, Sampling.held, List.cons_append, List.nil_append] at hmark
      refine ⟨some (u, i), h.of_order ?_ (by simp) (by simp) (by simp [order, hsamp, Sampling.pair]) rfl⟩
      first
      | exact hmark.change_first (l := []) hk (by simp) (by simp) (by grind)
      | exact hmark.change_first (l := [_]) hk (by simp) (by simp) (by grind)
    next => cases hs

/-- `calculate` finds the buffers of the window that waits. -/
theorem waits_of_found (hpc : s.pc = .idle) {ui ii : Nat} (hu : find s.bufs .readyU = some ui)
    (hi : find s.bufs .readyI = some ii) : w = some (ui, ii) := by
  have hmu := h.marked.found hu (by simp)
  have hmi := h.marked.found hi (by simp)
  have hend := h.ending
  cases hsamp : s.sampling <;> cases w <;>
    simp_all [Sampling.held, Waiting.held, Pc.busy]

theorem step {e : Event} (hs : Meeting Step KeepsUp e s s') : ∃ w', Sound s' w' := by
  obtain ⟨hs, hc⟩ := hs
  cases e with
  | sampleVoltageEnd => exact h.sampleEnd (.inl rfl) hc hs
  | sampleCurrentEnd => exact h.sampleEnd (.inr rfl) hc hs
  | sampleVoltageBegin =>
    simp only [Step, EnergyBuffers.step] at hs
    split at hs
    next =>
      cases hs
      exact ⟨w, h⟩
    next u hi hu =>
      cases hs
      exact ⟨w, h.voltageBegin hi hu⟩
    next => cases hs
  | sampleCurrentBegin =>
    simp only [Step, EnergyBuffers.step] at hs
    split at hs
    next u i hu hi =>
      cases hs
      exact ⟨w, h.currentBegin hu hi⟩
    next => cases hs
  | calculate =>
    simp only [Step, EnergyBuffers.step] at hs
    split at hs
    next ui ii hpc hu hi =>
      cases hs
      obtain rfl := h.waits_of_found hpc hu hi
      have hmark := h.marked
      refine ⟨none, h.of_order ?_ (fun _ _ _ => rfl) h.begun (by simp [order, Pc.pair, hpc]) rfl⟩
      simpa [hpc, Waiting.held, Pc.busy] using hmark
    next =>
      cases hs
      exact ⟨w, h⟩
    next => cases hs
  | doCalculate =>
    simp only [Step, EnergyBuffers.step] at hs
    split at hs
    next ui ii hpc =>
      cases hs
      have hmark := h.marked
      rw [hpc] at hmark
      exact ⟨w, h.of_order hmark h.ending h.begun (by simp [order, Pc.pair, hpc]) rfl⟩
    next => cases hs
  | load =>
    simp only [Step, EnergyBuffers.step] at hs
    have hmark := h.marked
    split at hs
    all_goals cases hs
    all_goals
      next hpc =>
        rw [hpc] at hmark
        exact ⟨w, h.of_order hmark h.ending h.begun (by simp [order, Pc.pair, hpc]) rfl⟩
  | exchange fails =>
    simp only [Step, EnergyBuffers.step] at hs
    have hmark := h.marked
    split at hs
    case h_3 => cases hs
    all_goals
      next hpc =>
        rw [hpc] at hmark
        split at hs
        · cases hs
          have hfreed := (hmark.perm List.perm_middle).release
          exact ⟨w, h.of_order hfreed h.ending h.begun (by simp [order, Pc.pair, hpc]) rfl⟩
        · cases hs
          exact ⟨w, h.of_order hmark h.ending h.begun (by simp [order, Pc.pair, hpc]) rfl⟩

end

end Sound

/-- The buffers the interrupt writes to. -/
def Sampling.bufs (p : Sampling) : List Nat := p.held.map Prod.fst

theorem free_of_given {s s' : State} {e : Event} {k : Nat} (hs : Step e s s') (hk : k ∈ s'.sampling.bufs) :
    k ∈ s.sampling.bufs ∨ s.bufs[k]? = some .free := by
  cases e with
  | sampleVoltageBegin =>
    simp only [Step, step] at hs
    split at hs
    next =>
      cases hs
      exact .inl hk
    next u _ hu =>
      cases hs
      obtain rfl : k = u := by simpa [Sampling.bufs, Sampling.held, State.claimVoltage] using hk
      exact .inr (find_some hu)
    next => cases hs
  | sampleCurrentBegin =>
    simp only [Step, step] at hs
    split at hs
    next u i hu hi =>
      cases hs
      rw [hu]
      obtain rfl | rfl : k = u ∨ k = i := by simpa [Sampling.bufs, Sampling.held, State.claimCurrent] using hk
      · exact .inl (by simp [Sampling.bufs, Sampling.held])
      · exact .inr (find_some hi)
    next => cases hs
  | sampleVoltageEnd | sampleCurrentEnd =>
    simp only [Step, step] at hs
    left
    split at hs <;> cases hs <;> simp_all [Sampling.bufs, Sampling.held]
  | calculate | doCalculate | load =>
    simp only [Step, step] at hs
    left
    split at hs <;> cases hs <;> exact hk
  | exchange fails =>
    simp only [Step, step] at hs
    left
    split at hs
    · split at hs <;> cases hs <;> exact hk
    · split at hs <;> cases hs <;> exact hk
    · cases hs

/-- **Windows in order**: while `calculate` keeps up, the interrupt is only given buffers that are free and that
`calculate` does not use, `do_calculate` gets the two buffers of one window, and the windows are calculated in the
order in which they were sampled, each at most once. -/
theorem windows_in_order {s : State} (hr : Run (Meeting Step KeepsUp) {} s) :
    (∀ e s', Step e s s' → ∀ k ∈ s'.sampling.bufs, k ∈ s.sampling.bufs ∨
      s.bufs[k]? = some .free ∧ k ∉ s.pc.busy.map Prod.fst) ∧
      (∀ p ∈ s.log, p.1 = p.2) ∧ s.log.Pairwise fun p q => q.1 < p.1 := by
  obtain ⟨w, h⟩ := hr.keeps (P := fun s => ∃ w, Sound s w) (fun _ _ _ ⟨_, h⟩ hs => h.step hs) ⟨none, Sound.init⟩
  refine ⟨?_, fun p hp => (h.same p (List.mem_append_right _ hp)).1, (List.pairwise_append.mp h.sorted).2.1⟩
  intro e s' hs k hk
  refine (free_of_given hs hk).imp_right fun hfree => ⟨hfree, fun hbusy => ?_⟩
  have hnot := h.marked.not_mem_of_free hfree
  rw [List.map_append] at hnot
  exact hnot (List.mem_append_right _ hbusy)

/-- Three windows, two of them calculated, with the interrupt between the two releases. -/
def threeWindows : Reached (Meeting Step KeepsUp) {} fun s => s.log = [(2, 2), (1, 1)] ∧ s.windows = 3 :=
  reached (meeting_of_guarded fun _ _ _ => id)
    [.sampleVoltageBegin, .sampleCurrentBegin, .sampleVoltageEnd, .sampleCurrentEnd, .calculate, .doCalculate, .load,
      .sampleVoltageBegin, .exchange false, .load, .exchange false, .sampleCurrentBegin, .load, .exchange false,
      .sampleCurrentEnd, .sampleVoltageEnd, .calculate, .doCalculate, .sampleVoltageBegin, .sampleCurrentBegin]
    (by decide +kernel)

theorem threeWindows_in_order :
    (∀ e s', Step e threeWindows.state s' → ∀ k ∈ s'.sampling.bufs, k ∈ threeWindows.state.sampling.bufs ∨
      threeWindows.state.bufs[k]? = some .free ∧ k ∉ threeWindows.state.pc.busy.map Prod.fst) ∧
      (∀ p ∈ threeWindows.state.log, p.1 = p.2) ∧ threeWindows.state.log.Pairwise fun p q => q.1 < p.1 :=
  windows_in_order threeWindows.run

/-- While `calculate` works on the first window the second is sampled; the third gets the buffers of the first and is
calculated before the second. -/
theorem third_before_second : ∃ s, Run Step {} s ∧ s.log = [(2, 2), (3, 3), (1, 1)] :=
  exists_run (fun _ _ _ => id)
    [.sampleVoltageBegin, .sampleCurrentBegin, .sampleVoltageEnd, .sampleCurrentEnd, .sampleVoltageBegin,
      .sampleCurrentBegin, .calculate, .doCalculate, .load, .exchange false, .load, .exchange false,
      .sampleVoltageEnd, .sampleCurrentEnd, .sampleVoltageBegin, .sampleCurrentBegin, .sampleVoltageEnd,
      .sampleCurrentEnd, .calculate, .doCalculate, .load, .exchange false, .load, .exchange false, .calculate,
      .doCalculate]
    (by decide +kernel)

end Isix.EnergyBuffers
