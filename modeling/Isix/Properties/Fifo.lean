import Isix.Fifo

/-!
# Isix.Properties.Fifo

A fifo is a bounded queue, whatever the order in which its callers get their
tokens, copy and signal.  Two kinds of tokens go around: a free element and a
stored item are each with a semaphore, with a call that has taken one and not
copied yet, or with a call that has copied and not signalled yet.
-/

namespace Isix.Fifo

open Function (update update_self update_of_ne update_eq_self)
open Runs

variable {m : Nat} {s s' : State m} {f : IsixFifo} {c d : Fin m} {pc : Pc} {σ τ : Side} {v : Int}

/-! ## tokens -/

def waits (σ : Side) (pc : Pc) : Nat := (pc.waitsFor σ).toNat

/-- The call has a token of the semaphore and has not copied yet. -/
def copies (σ : Side) : Pc → Nat
  | .copying op => if op.takes = σ then 1 else 0
  | _ => 0

/-- The call has copied and is to signal the semaphore. -/
def signals (σ : Side) : Pc → Nat
  | .signalling op => if op.gives = σ then 1 else 0
  | _ => 0

/-- The tokens of a semaphore that are somewhere. -/
def held (σ : Side) (s : State m) : Nat :=
  (s.sem σ).toNat + tally (copies σ) s.calls + tally (signals σ) s.calls

/-- A negative semaphore counts the tasks asleep on it. -/
def Waiting (s : State m) : Prop := ∀ σ, tally (waits σ) s.calls = (-s.sem σ).toNat

/-- A step that moves tokens, and copies nothing. -/
structure Moves (s s' : State m) : Prop where
  waiting : Waiting s'
  held : ∀ σ, held σ s' = held σ s
  mem : s'.mem = s.mem
  txP : s'.txP = s.txP
  rxP : s'.rxP = s.rxP
  written : s'.written = s.written
  read : s'.read = s.read

/-- A caller that holds nothing and sleeps nowhere. -/
def Pc.light : Pc → Bool
  | .user | .returned _ _ => true
  | _ => false

theorem light_copies (h : pc.light = true) : copies σ pc = 0 := by
  cases pc <;> first | rfl | cases h

theorem light_signals (h : pc.light = true) : signals σ pc = 0 := by
  cases pc <;> first | rfl | cases h

theorem light_waits (h : pc.light = true) : waits σ pc = 0 := by
  cases pc <;> first | rfl | cases h

/-- A caller moves on and the semaphore `σ` gets the value `v`. -/
theorem goto_moves (hw : Waiting s)
    (hwait : (-s.sem σ).toNat + waits σ pc = (-v).toNat + waits σ (s.calls c))
    (hheld : copies σ pc + signals σ pc + v.toNat =
      copies σ (s.calls c) + signals σ (s.calls c) + (s.sem σ).toNat)
    (hother : ∀ τ, τ ≠ σ → waits τ pc = waits τ (s.calls c) ∧ copies τ pc = copies τ (s.calls c) ∧
      signals τ pc = signals τ (s.calls c)) : Moves s ((s.setSem σ v).goto c pc) := by
  have hself : ((s.setSem σ v).goto c pc).sem σ = v := by simp [State.goto, State.setSem]
  have hne : ∀ τ, τ ≠ σ → ((s.setSem σ v).goto c pc).sem τ = s.sem τ := fun τ hτ => by
    simp [State.goto, State.setSem, hτ]
  have htally : ∀ g : Pc → Nat,
      tally g ((s.setSem σ v).goto c pc).calls + g (s.calls c) = tally g s.calls + g pc :=
    fun g => tally_update g s.calls c pc
  refine ⟨fun τ => ?_, fun τ => ?_, rfl, rfl, rfl, rfl, rfl⟩
  · have h₁ := htally (waits τ)
    have h₂ := hw τ
    by_cases hτ : τ = σ
    · subst hτ
      rw [hself]
      omega
    · have h₃ := (hother τ hτ).1
      rw [hne τ hτ]
      omega
  · have h₁ := htally (copies τ)
    have h₂ := htally (signals τ)
    unfold held
    by_cases hτ : τ = σ
    · subst hτ
      rw [hself]
      omega
    · obtain ⟨-, h₃, h₄⟩ := hother τ hτ
      rw [hne τ hτ]
      omega

section

variable {op : Op} {code : Int} {b : Bool}

section

variable (hw : Waiting s)

include hw

/-- A call takes a token. -/
theorem take_moves (hl : (s.calls c).light = true) (hpos : 0 < s.sem op.takes) :
    Moves s ((s.setSem op.takes (s.sem op.takes - 1)).goto c (.copying op)) := by
  refine goto_moves hw ?_ ?_ fun τ hτ => ?_
  · rw [light_waits hl]
    simp only [waits, Pc.waitsFor, Bool.toNat_false]
    omega
  · rw [light_copies hl, light_signals hl]
    simp only [copies, signals, if_pos]
    omega
  · rw [light_waits hl, light_copies hl, light_signals hl]
    exact ⟨rfl, if_neg (Ne.symm hτ), rfl⟩

/-- A call gives up, or its caller goes on. -/
theorem light_moves (hl : (s.calls c).light = true) (hpc : pc.light = true) :
    Moves s (s.goto c pc) := by
  have hself : s.setSem .tx (s.sem .tx) = s := by simp [State.setSem, update_eq_self]
  have hgo : Moves s ((s.setSem .tx (s.sem .tx)).goto c pc) := by
    refine goto_moves hw ?_ ?_ fun τ _ => ?_
    · rw [light_waits hl, light_waits hpc]
    · rw [light_copies hl, light_signals hl, light_copies hpc, light_signals hpc]
    · rw [light_waits hl, light_copies hl, light_signals hl, light_waits hpc, light_copies hpc, light_signals hpc]
      exact ⟨rfl, rfl, rfl⟩
  rw [hself] at hgo
  exact hgo

/-- A call goes to sleep. -/
theorem sleep_moves (hl : (s.calls c).light = true) (hneg : s.sem op.takes ≤ 0) :
    Moves s ((s.setSem op.takes (s.sem op.takes - 1)).goto c (.waiting op)) := by
  refine goto_moves hw ?_ ?_ fun τ hτ => ?_
  · rw [light_waits hl]
    simp only [waits, Pc.waitsFor, decide_true, Bool.toNat_true]
    omega
  · rw [light_copies hl, light_signals hl]
    simp only [copies, signals]
    omega
  · rw [light_waits hl, light_copies hl, light_signals hl]
    exact ⟨by simp [waits, Pc.waitsFor, Ne.symm hτ], rfl, rfl⟩

/-- A task asleep means a negative semaphore. -/
theorem Waiting.neg (hp : s.calls c = .waiting op) : s.sem op.takes < 0 := by
  have hle := le_tally (f := waits op.takes) (g := s.calls) c
  have hτ := hw op.takes
  rw [hp] at hle
  simp only [waits, Pc.waitsFor, decide_true, Bool.toNat_true] at hle hτ
  omega

/-- A call wakes up without a token. -/
theorem expire_moves (hp : s.calls c = .waiting op) : Moves s (expire c op s) := by
  have hneg := hw.neg hp
  refine goto_moves hw ?_ ?_ fun τ hτ => ?_
  · rw [hp]
    simp only [waits, Pc.waitsFor, decide_true, Bool.toNat_true, Bool.toNat_false]
    omega
  · rw [hp]
    simp only [copies, signals]
    omega
  · rw [hp]
    exact ⟨by simp [waits, Pc.waitsFor, Ne.symm hτ], rfl, rfl⟩

/-- A signal that finds nobody asleep. -/
theorem deposit_moves (hp : s.calls c = .signalling op) (hpos : 0 ≤ s.sem op.gives) :
    Moves s ((s.setSem op.gives (s.sem op.gives + 1)).goto c (.returned code b)) := by
  refine goto_moves hw ?_ ?_ fun τ hτ => ?_
  · rw [hp]
    simp only [waits, Pc.waitsFor, Bool.toNat_false]
    omega
  · rw [hp]
    simp only [copies, signals, if_pos]
    omega
  · rw [hp]
    exact ⟨rfl, rfl, (if_neg (Ne.symm hτ)).symm⟩

/-- A signal that hands the token to a task asleep. -/
theorem hand_moves {w : Fin m} {op' : Op} (hp : s.calls c = .signalling op)
    (hpw : s.calls w = .waiting op') (he : op'.takes = op.gives) :
    Moves s (((s.setSem op.gives (s.sem op.gives + 1)).goto c (.returned code b)).goto w (.copying op')) := by
  have hneg := hw.neg hpw
  rw [he] at hneg
  have hwc : w ≠ c := fun h => by
    subst h
    rw [hp] at hpw
    cases hpw
  -- the two callers move one after the other
  generalize hs₁ : (s.setSem op.gives (s.sem op.gives + 1)).goto c (.returned code b) = s₁
  have hsem : ∀ τ, s₁.sem τ = if τ = op.gives then s.sem τ + 1 else s.sem τ := by
    intro τ
    rw [← hs₁]
    by_cases hτ : τ = op.gives
    · subst hτ
      simp [State.goto, State.setSem]
    · simp [State.goto, State.setSem, hτ]
  have hpw₁ : s₁.calls w = .waiting op' := by
    rw [← hs₁]
    exact (update_of_ne hwc ..).trans hpw
  have hcount : ∀ g : Pc → Nat, g (.returned code b) = 0 →
      tally g (update s₁.calls w (.copying op')) + g (.waiting op') + g (.signalling op) =
        tally g s.calls + g (.copying op') := by
    intro g hg
    have h₁ := tally_update g s.calls c (.returned code b)
    have h₂ := tally_update g s₁.calls w (.copying op')
    have h₃ : s₁.calls = update s.calls c (.returned code b) := by rw [← hs₁]; rfl
    rw [hpw₁] at h₂
    rw [hp, hg] at h₁
    rw [← h₃] at h₁
    omega
  refine ⟨fun τ => ?_, fun τ => ?_, ?_, ?_, ?_, ?_, ?_⟩
  · have h₁ := hcount (waits τ) rfl
    have h₂ := hw τ
    change tally (waits τ) (update s₁.calls w (.copying op')) = (-s₁.sem τ).toNat
    rw [hsem]
    simp only [waits, Pc.waitsFor, Bool.toNat_false, he] at h₁ h₂ ⊢
    by_cases hτ : τ = op.gives
    · subst hτ
      simp only [if_pos, decide_true, Bool.toNat_true] at h₁ ⊢
      omega
    · simp only [if_neg hτ, decide_eq_false (Ne.symm hτ), Bool.toNat_false] at h₁ ⊢
      omega
  · have h₁ := hcount (copies τ) rfl
    have h₂ := hcount (signals τ) rfl
    unfold held
    change (s₁.sem τ).toNat + tally (copies τ) (update s₁.calls w (.copying op')) +
      tally (signals τ) (update s₁.calls w (.copying op')) = _
    rw [hsem]
    simp only [copies, signals, he] at h₁ h₂ ⊢
    by_cases hτ : τ = op.gives
    · subst hτ
      simp only [if_pos] at h₁ h₂ ⊢
      omega
    · simp only [if_neg hτ, if_neg (Ne.symm hτ)] at h₁ h₂ ⊢
      omega
  all_goals rw [← hs₁]; rfl

theorem trywait_moves (hl : (s.calls c).light = true) :
    Moves s (trywait c op code s) := by
  unfold trywait
  split
  · rename_i hpos
    exact take_moves hw hl hpos
  · exact light_moves hw hl rfl

theorem call_moves {wait : Wait} (hl : (s.calls c).light = true) :
    Moves s (call c op wait s) := by
  unfold call
  split
  · exact trywait_moves hw hl
  · dsimp only
    split
    · exact take_moves hw hl (by omega)
    · split
      · have hself : s.setSem op.takes (s.sem op.takes - 1 + 1) = s := by
          simp [State.setSem, update_eq_self]
        rw [hself]
        exact light_moves hw hl rfl
      · exact sleep_moves hw hl (by omega)

theorem callIsr_moves (hl : (s.calls c).light = true) : Moves s (callIsr f c op s) := by
  unfold callIsr
  split
  · exact light_moves hw hl rfl
  · exact trywait_moves hw hl

theorem signal_moves {woken : Option (Fin m)} (hp : s.calls c = .signalling op)
    (hs : signal c op woken s = some s') : Moves s s' := by
  unfold signal at hs
  dsimp only at hs
  split at hs
  · rename_i hv
    cases woken with
    | none =>
      -- a negative semaphore has a task asleep
      obtain ⟨hnone, -⟩ := Option.ite_none_right_eq_some.mp hs
      have hpos : 0 < tally (waits op.gives) s.calls := by
        rw [hw]
        omega
      obtain ⟨d, hd⟩ := exists_of_tally_pos hpos
      rw [waits, hnone d] at hd
      cases hd
    | some w =>
      dsimp only at hs
      cases hpw : s.calls w with
      | waiting op' =>
        rw [hpw] at hs
        obtain ⟨he, rfl⟩ := of_guard hs
        exact hand_moves hw hp hpw he
      | _ =>
        rw [hpw] at hs
        cases hs
  · cases hs
    exact deposit_moves hw hp (by omega)

end

end

/-! ## the invariant -/

/-- The arguments a call still reads are of the size of an element, and an
error has copied nothing. -/
def PcOk (f : IsixFifo) : Pc → Prop
  | .waiting op | .copying op => op.fits f
  | .returned code copied => copied = true → code = isixEok
  | _ => True

structure Sound (f : IsixFifo) (s : State m) : Prop where
  waiting : Waiting s
  /-- the tokens of `tx_sem` are the free elements -/
  tx : held .tx s + s.written.length = f.nElem + s.read.length
  /-- the tokens of `rx_sem` are the stored items -/
  rx : held .rx s + s.read.length = s.written.length
  txP : s.txP = s.written.length % f.nElem * f.elemSize
  rxP : s.rxP = s.read.length % f.nElem * f.elemSize
  window : Ring.Window f.nElem f.elemSize s.mem s.written s.read.length
  order : s.read = s.written.take s.read.length
  pcs : ∀ c, PcOk f (s.calls c)

theorem held_init {mem : Nat → UInt8} :
    held σ (State.init f mem : State m) = ((State.init f mem : State m).sem σ).toNat := by
  have h₁ : tally (copies σ) (State.init f mem : State m).calls = 0 := tally_const_zero rfl
  have h₂ : tally (signals σ) (State.init f mem : State m).calls = 0 := tally_const_zero rfl
  rw [held, h₁, h₂]
  rfl

theorem Sound.init {mem : Nat → UInt8} : Sound f (State.init f mem : State m) where
  waiting σ := by
    have hz : tally (waits σ) (State.init f mem : State m).calls = 0 := tally_const_zero rfl
    rw [hz]
    cases σ <;> simp [State.init]
  tx := by rw [held_init]; rfl
  rx := by rw [held_init]; rfl
  txP := by simp [State.init]
  rxP := by simp [State.init]
  window := Ring.Window.nil
  order := rfl
  pcs _ := trivial

theorem Sound.moves (h : Sound f s) (hm : Moves s s') (hpcs : ∀ c, PcOk f (s'.calls c)) : Sound f s' where
  waiting := hm.waiting
  tx := by rw [hm.held, hm.written, hm.read]; exact h.tx
  rx := by rw [hm.held, hm.written, hm.read]; exact h.rx
  txP := by rw [hm.txP, hm.written]; exact h.txP
  rxP := by rw [hm.rxP, hm.read]; exact h.rxP
  window := by rw [hm.mem, hm.written, hm.read]; exact h.window
  order := by rw [hm.written, hm.read]; exact h.order
  pcs := hpcs

theorem pcs_update (h : ∀ d, PcOk f (s.calls d)) (hpc : PcOk f pc) (d : Fin m) :
    PcOk f (update s.calls c pc d) := by
  by_cases hd : d = c
  · subst hd
    rw [update_self]
    exact hpc
  · rw [update_of_ne hd]
    exact h d

variable {op : Op}

theorem pcOk_waiting (h : op.fits f) : PcOk f (.waiting op) := h

theorem pcOk_copying (h : op.fits f) : PcOk f (.copying op) := h

/-- A call that returns before it copied. -/
theorem pcOk_error {code : Int} : PcOk f (.returned code false) := fun h => by cases h

theorem Sound.le (h : Sound f s) : s.read.length ≤ s.written.length := by
  have hrx := h.rx
  omega

/-! ## the copies -/

/-- The tokens around a copy: one of the semaphore the call took becomes one
of the semaphore it signals. -/
theorem held_copy (hp : s.calls c = .copying op) (σ : Side) :
    held σ (s.goto c (.signalling op)) + copies σ (.copying op) = held σ s + signals σ (.signalling op) := by
  have h₁ := tally_update (copies σ) s.calls c (.signalling op)
  have h₂ := tally_update (signals σ) s.calls c (.signalling op)
  rw [hp] at h₁ h₂
  unfold held State.goto
  simp only [copies, signals] at h₁ h₂ ⊢
  omega

theorem waiting_copy (hw : Waiting s) (hp : s.calls c = .copying op) :
    Waiting (s.goto c (.signalling op)) := by
  intro σ
  have h₁ := tally_update (waits σ) s.calls c (.signalling op)
  have h₂ := hw σ
  rw [hp] at h₁
  change tally (waits σ) (update s.calls c (.signalling op)) = (-s.sem σ).toNat
  simp only [waits, Pc.waitsFor, Bool.toNat_false] at h₁ h₂ ⊢
  omega

/-- A call with a token counts. -/
theorem held_pos (hp : s.calls c = .copying op) : 0 < held op.takes s := by
  have hle := le_tally (f := copies op.takes) (g := s.calls) c
  rw [hp] at hle
  simp only [copies, if_pos] at hle
  unfold held
  omega

/-- A write copies behind the stored items, into a free element. -/
theorem copyIn_sound {item : Item} (h : Sound f s) (hn : 0 < f.nElem) (hsize : f.size = f.nElem * f.elemSize)
    (hp : s.calls c = .copying (.write item)) : Sound f (copy f c (.write item) s) := by
  have hpos := held_pos hp
  have htx := held_copy hp .tx
  have hrx := held_copy hp .rx
  simp only [copies, signals, Op.takes, Op.gives, if_pos, reduceCtorEq, if_false] at hpos htx hrx
  have hfits : item.length = f.elemSize := by
    have hc := h.pcs c
    rw [hp] at hc
    exact hc
  have htx₀ := h.tx
  have hrx₀ := h.rx
  have hroom : s.written.length < s.read.length + f.nElem := by omega
  exact
    { waiting := waiting_copy h.waiting hp
      tx := by
        change held .tx (s.goto c (.signalling (.write item))) + (s.written ++ [item]).length = _
        rw [List.length_append, List.length_singleton]
        change _ = f.nElem + s.read.length
        omega
      rx := by
        change held .rx (s.goto c (.signalling (.write item))) + s.read.length = (s.written ++ [item]).length
        rw [List.length_append, List.length_singleton]
        omega
      txP := by
        change Ring.advance f.size f.elemSize s.txP = (s.written ++ [item]).length % f.nElem * f.elemSize
        rw [h.txP, hsize, Ring.advance_eq hn, List.length_append, List.length_singleton]
      rxP := h.rxP
      window := by
        have hpush := h.window.push hroom hfits
        rw [← h.txP] at hpush
        exact hpush
      order := by
        change s.read = (s.written ++ [item]).take s.read.length
        rw [List.take_append_of_le_length h.le]
        exact h.order
      pcs := pcs_update h.pcs trivial }

/-- A read copies the first stored item. -/
theorem copyOut_sound (h : Sound f s) (hn : 0 < f.nElem) (hsize : f.size = f.nElem * f.elemSize)
    (hp : s.calls c = .copying .read) : Sound f (copy f c .read s) := by
  have hpos := held_pos hp
  have htx := held_copy hp .tx
  have hrx := held_copy hp .rx
  simp only [copies, signals, Op.takes, Op.gives, if_pos, reduceCtorEq, if_false] at hpos htx hrx
  have htx₀ := h.tx
  have hrx₀ := h.rx
  have hlt : s.read.length < s.written.length := by omega
  have hitem : Ring.slice s.rxP f.elemSize s.mem = s.written.get ⟨s.read.length, hlt⟩ := by
    rw [h.rxP]
    exact h.window _ _ (Nat.le_refl _) (List.getElem?_eq_getElem hlt)
  exact
    { waiting := waiting_copy h.waiting hp
      tx := by
        change held .tx (s.goto c (.signalling .read)) + s.written.length = f.nElem + (s.read ++ [_]).length
        rw [List.length_append, List.length_singleton]
        omega
      rx := by
        change held .rx (s.goto c (.signalling .read)) + (s.read ++ [_]).length = s.written.length
        rw [List.length_append, List.length_singleton]
        omega
      txP := h.txP
      rxP := by
        change Ring.advance f.size f.elemSize s.rxP = (s.read ++ [_]).length % f.nElem * f.elemSize
        rw [h.rxP, hsize, Ring.advance_eq hn, List.length_append, List.length_singleton]
      window := by
        change Ring.Window f.nElem f.elemSize s.mem s.written (s.read ++ [_]).length
        rw [List.length_append, List.length_singleton]
        exact h.window.pop
      order := by
        change s.read ++ [_] = s.written.take (s.read ++ [_]).length
        rw [List.length_append, List.length_singleton, hitem, List.take_succ_eq_append_getElem hlt, ← h.order]
        rfl
      pcs := pcs_update h.pcs trivial }

/-! ## steps and runs -/

section

variable (h : ∀ d, PcOk f (s.calls d))

include h

theorem pcs_signal {woken : Option (Fin m)}
    (hs : signal c op woken s = some s') (d : Fin m) : PcOk f (s'.calls d) := by
  have hret : PcOk f (.returned isixEok true) := fun _ => rfl
  have h₁ : ∀ d, PcOk f (((s.setSem op.gives (s.sem op.gives + 1)).goto c (.returned isixEok true)).calls d) :=
    pcs_update h hret
  unfold signal at hs
  dsimp only at hs
  split at hs
  · cases woken with
    | none =>
      obtain ⟨-, rfl⟩ := of_guard hs
      exact h₁ d
    | some w =>
      dsimp only at hs
      cases hpw : s.calls w with
      | waiting op' =>
        rw [hpw] at hs
        obtain ⟨-, rfl⟩ := of_guard hs
        have hw := h w
        rw [hpw] at hw
        exact pcs_update h₁ (pcOk_copying hw) d
      | _ =>
        rw [hpw] at hs
        cases hs
  · cases hs
    exact h₁ d

theorem pcs_trywait {code : Int} (hop : op.fits f) (d : Fin m) :
    PcOk f ((trywait c op code s).calls d) := by
  unfold trywait
  split
  · exact pcs_update h (pcOk_copying hop) d
  · exact pcs_update h pcOk_error d

theorem pcs_call {wait : Wait} (hop : op.fits f) (d : Fin m) :
    PcOk f ((call c op wait s).calls d) := by
  unfold call
  split
  · exact pcs_trywait h hop d
  · dsimp only
    split
    · exact pcs_update h (pcOk_copying hop) d
    · split
      · exact pcs_update h pcOk_error d
      · exact pcs_update h (pcOk_waiting hop) d

theorem pcs_callIsr (hop : op.fits f) (d : Fin m) :
    PcOk f ((callIsr f c op s).calls d) := by
  unfold callIsr
  split
  · exact pcs_update h pcOk_error d
  · exact pcs_trywait h hop d

end

/-- **Step** -/
theorem Sound.step {e : Step m} (hn : 0 < f.nElem) (hsize : f.size = f.nElem * f.elemSize) (h : Sound f s)
    (hs : Takes f e s s') : Sound f s' := by
  unfold Takes at hs
  cases e with
  | call c op wait =>
    obtain ⟨⟨hp, hop⟩, rfl⟩ := of_guard hs
    exact h.moves (call_moves h.waiting (by rw [hp]; rfl)) (pcs_call h.pcs hop)
  | callIsr c op =>
    obtain ⟨⟨hp, hop⟩, rfl⟩ := of_guard hs
    exact h.moves (callIsr_moves h.waiting (by rw [hp]; rfl)) (pcs_callIsr h.pcs hop)
  | expire c =>
    cases hp : s.calls c with
    | waiting op =>
      simp only [next, hp] at hs
      cases hs
      exact h.moves (expire_moves h.waiting hp) (pcs_update h.pcs pcOk_error)
    | _ => simp only [next, hp, reduceCtorEq] at hs
  | copy c =>
    cases hp : s.calls c with
    | copying op =>
      simp only [next, hp] at hs
      cases hs
      cases op with
      | write item => exact copyIn_sound h hn hsize hp
      | read => exact copyOut_sound h hn hsize hp
    | _ => simp only [next, hp, reduceCtorEq] at hs
  | signal c woken =>
    cases hp : s.calls c with
    | signalling op =>
      simp only [next, hp] at hs
      exact h.moves (signal_moves h.waiting hp hs) (pcs_signal h.pcs hs)
    | _ => simp only [next, hp, reduceCtorEq] at hs
  | leave c =>
    cases hp : s.calls c with
    | returned code copied =>
      simp only [next, hp] at hs
      cases hs
      exact h.moves (light_moves h.waiting (by rw [hp]; rfl) rfl) (pcs_update h.pcs trivial)
    | _ => simp only [next, hp, reduceCtorEq] at hs

theorem fifoCreateEx_size {nElem elemSize : Nat} {noirq : Bool} (h : nElem * elemSize ≤ 2147483647)
    (hf : fifoCreateEx nElem elemSize noirq = some f) :
    f.nElem = nElem ∧ f.elemSize = elemSize ∧ f.size = f.nElem * f.elemSize := by
  have hv : toInt32 ((nElem : Int) * elemSize) = ((nElem * elemSize : Nat) : Int) := by
    rw [← Int.natCast_mul]
    exact Int.bmod_eq_of_le (by omega) (by omega)
  unfold fifoCreateEx at hf
  simp only [hv] at hf
  rw [if_neg (by omega)] at hf
  cases hf
  exact ⟨rfl, rfl, Int.toNat_natCast _⟩

/-- **Bounded queue**: in every state of every interleaving the items copied out
are the first ones copied in, in order, and those still stored, at most as many
as the fifo has elements, are intact in the buffer; both pointers are at an
element inside of it, the count is not more than what is stored, and a call that
returns an error has copied nothing. -/
theorem fifo_bounded_queue {nElem elemSize : Nat} {noirq : Bool} {mem : Nat → UInt8} (hn : 1 ≤ nElem)
    (hsize : nElem * elemSize ≤ 2147483647) (hf : fifoCreateEx nElem elemSize noirq = some f)
    (hr : Run (Takes f) (State.init f mem : State m) s) :
    s.read = s.written.take s.read.length ∧ s.read.length ≤ s.written.length ∧
    s.written.length - s.read.length ≤ nElem ∧
    (∀ i item, s.read.length ≤ i → s.written[i]? = some item →
      Ring.slice (i % nElem * elemSize) elemSize s.mem = item) ∧
    ((∃ i, i < nElem ∧ s.txP = i * elemSize) ∧ ∃ i, i < nElem ∧ s.rxP = i * elemSize) ∧
    fifoCount s ≤ (s.written.length - s.read.length : Nat) ∧
    (∀ c code copied, s.calls c = .returned code copied → code ≠ isixEok → copied = false) := by
  obtain ⟨rfl, rfl, hsz⟩ := fifoCreateEx_size hsize hf
  have h : Sound f s := hr.keeps (fun _ _ _ hs ht => hs.step hn hsz ht) .init
  have htx := h.tx
  have hrx := h.rx
  refine ⟨h.order, h.le, by omega, fun i item hi hx => h.window i item hi hx,
    ⟨⟨_, Nat.mod_lt _ hn, h.txP⟩, ⟨_, Nat.mod_lt _ hn, h.rxP⟩⟩, ?_, fun c code copied hp hne => ?_⟩
  · unfold held at hrx
    unfold fifoCount
    split <;> omega
  · have hc := h.pcs c
    rw [hp] at hc
    cases copied with
    | false => rfl
    | true => exact absurd (hc rfl) hne

/-- A fifo of two elements of two bytes: a reader is asleep when the first
item comes, a second writer copies before it is signalled. -/
theorem fifo_bounded_queue_two : ∃ (f : IsixFifo) (s : State 3), fifoCreateEx 2 2 false = some f ∧
    Run (Takes f) (State.init f fun _ => 0) s ∧ s.written = [[1, 2], [3, 4]] ∧ s.read = [[1, 2]] ∧
    s.read = s.written.take s.read.length := by
  obtain ⟨s, hr, hw, hrd⟩ := exists_run (R := Takes (m := 3) ⟨2, 2, 4, false⟩)
    (fun _ _ _ => id)
    [.call 0 .read .sleep, .call 1 (.write [1, 2]) .sleep, .callIsr 2 (.write [3, 4]), .copy 1, .copy 2,
      .signal 2 (some 0), .copy 0, .signal 1 none]
    (s := State.init ⟨2, 2, 4, false⟩ fun _ => 0)
    (P := fun s => s.written = [[1, 2], [3, 4]] ∧ s.read = [[1, 2]]) (by decide +kernel)
  have hf : fifoCreateEx 2 2 false = some ⟨2, 2, 4, false⟩ := by decide
  exact ⟨_, s, hf, hr, hw, hrd, (fifo_bounded_queue (by decide) (by decide) hf hr).1⟩

/-- The size of 2^30 + 1 elements of four bytes is 4 in an `int`: the second
item overwrites the first, and the read returns it. -/
theorem fifo_size_overflow : ∃ (f : IsixFifo) (s : State 2),
    fifoCreateEx 1073741825 4 false = some f ∧ f.size = 4 ∧
    Run (Takes f) (State.init f fun _ => 0) s ∧ s.written = [[1, 0, 0, 0], [2, 0, 0, 0]] ∧
    s.read = [[2, 0, 0, 0]] := by
  obtain ⟨s, hr, hw, hrd⟩ := exists_run (R := Takes (m := 2) ⟨1073741825, 4, 4, false⟩)
    (fun _ _ _ => id)
    [.call 0 (.write [1, 0, 0, 0]) .sleep, .copy 0, .signal 0 none, .leave 0,
      .call 0 (.write [2, 0, 0, 0]) .sleep, .copy 0, .signal 0 none, .call 1 .read .sleep, .copy 1]
    (s := State.init ⟨1073741825, 4, 4, false⟩ fun _ => 0)
    (P := fun s => s.written = [[1, 0, 0, 0], [2, 0, 0, 0]] ∧ s.read = [[2, 0, 0, 0]]) (by decide +kernel)
  exact ⟨_, s, by decide, rfl, hr, hw, hrd⟩

end Isix.Fifo
