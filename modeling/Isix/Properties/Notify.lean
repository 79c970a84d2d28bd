import Isix.Notify
import Isix.Refine.System

/-!
# Isix.Properties.Notify

What a connected event learns of the writes to a fifo and the signals of a
semaphore, over every interleaving in which connects and disconnects keep apart
from the other calls of the object and do not use a control bit.
-/

namespace Isix.Notify

open Function (update)
open Runs

variable {n : Nat} {s s' : State n} {c d : Fin n} {pc : Pc}

@[simp] theorem goto_calls_self : (s.goto c pc).calls c = pc := Function.update_self ..

theorem goto_calls_ne (h : d ≠ c) : (s.goto c pc).calls d = s.calls d := Function.update_of_ne h ..

/-! ## the bits an event takes -/

theorem refused_iff {b : Nat} (h : b ≤ 31) : 1#32 <<< b &&& ctrlBits ≠ 0#32 ↔ 30 ≤ b := by
  have hall : ∀ b : Fin 32, (1#32 <<< b.val &&& ctrlBits ≠ 0#32 ↔ 30 ≤ b.val) := by decide
  exact hall ⟨b, Nat.lt_succ_of_le h⟩

/-! ## the invariant -/

/-- What a call may hold. -/
def PcOk (s : State n) : Pc → Prop
  | .connecting v b => s.evt = some v ∧ (v, b) ∈ s.asked ∧ b < 30
  | .disconnecting => s.evt = none
  | .loadedEvt _ evt => evt = s.evt ∧ ∀ d, (s.calls d).updating = false
  | .loaded _ evt b => ∀ v, evt = some v → (v, b) ∈ s.asked ∧ b < 30
  | .notified _ raised => ∀ v b, raised = some (v, b) → (v, b) ∈ s.asked
  | _ => True

structure Tidy (s : State n) : Prop where
  /-- at most one call is between its two stores -/
  one : ∀ c d, (s.calls c).updating = true → (s.calls d).updating = true → c = d
  /-- and if there is none, the two members fit together -/
  bitno : (∀ d, (s.calls d).updating = false) → ∀ v, s.evt = some v → (v, s.bitno) ∈ s.asked ∧ s.bitno < 30
  pcs : ∀ c, PcOk s (s.calls c)

theorem Tidy.init {k : Kernel} : Tidy (State.init k : State n) where
  one _ _ h _ := by cases h
  bitno _ _ h := by cases h
  pcs _ := trivial

/-- The caller moves on without touching the object. -/
theorem Tidy.goto (h : Tidy s) (hu : pc.updating = false) (hold : (s.calls c).updating = false)
    (hpc : PcOk s pc) : Tidy (s.goto c pc) := by
  have hup : ∀ d, ((s.goto c pc).calls d).updating = (s.calls d).updating := by
    intro d
    by_cases hd : d = c
    · subst hd
      rw [goto_calls_self, hu, hold]
    · rw [goto_calls_ne hd]
  have hok : ∀ p, PcOk s p → PcOk (s.goto c pc) p := by
    intro p hp
    cases p with
    | loadedEvt ctx evt => exact ⟨hp.1, fun d => (hup d).trans (hp.2 d)⟩
    | _ => exact hp
  refine ⟨fun c₁ c₂ h₁ h₂ => h.one c₁ c₂ (hup c₁ ▸ h₁) (hup c₂ ▸ h₂),
    fun hno => h.bitno fun d => hup d ▸ hno d, fun d => ?_⟩
  by_cases hd : d = c
  · subst hd
    rw [goto_calls_self]
    exact hok _ hpc
  · rw [goto_calls_ne hd]
    exact hok _ (h.pcs d)

/-- The kernel moves on. -/
theorem Tidy.withKernel {k : Kernel} (h : Tidy s) : Tidy { s with kernel := k } := by
  refine ⟨h.one, h.bitno, fun c => ?_⟩
  have hc := h.pcs c
  revert hc
  cases s.calls c <;> exact id

/-- One more connect call was made. -/
theorem Tidy.ask {x : EvtId × Nat} (h : Tidy s) : Tidy { s with asked := x :: s.asked } := by
  refine ⟨h.one, fun hno v hv => ?_, fun c => ?_⟩
  · obtain ⟨hm, hlt⟩ := h.bitno hno v hv
    exact ⟨List.mem_cons_of_mem _ hm, hlt⟩
  · have hc := h.pcs c
    revert hc
    cases s.calls c with
    | connecting v b => exact fun hc => ⟨hc.1, List.mem_cons_of_mem _ hc.2.1, hc.2.2⟩
    | loaded ctx evt b => exact fun hc v hv => ⟨List.mem_cons_of_mem _ (hc v hv).1, (hc v hv).2⟩
    | notified st r => exact fun hc v b hr => List.mem_cons_of_mem _ (hc v b hr)
    | _ => exact id

/-- Nobody is between two stores or two loads. -/
def Still (s : State n) : Prop := ∀ d, (s.calls d).updating = false ∧ (s.calls d).loading = false

/-- A call that holds neither a store nor a load does not depend on `evt`. -/
theorem PcOk.setEvt {e : Option EvtId} {pc p : Pc} (h : PcOk s p) (hu : p.updating = false)
    (hl : p.loading = false) : PcOk { s.goto c pc with evt := e } p := by
  cases p with
  | connecting v b => cases hu
  | disconnecting => cases hu
  | loadedEvt ctx evt => cases hl
  | _ => exact h

section

variable (h : Tidy s)

include h

/-- The exchange of `evt`. -/
theorem Tidy.setEvt {e : Option EvtId} (hq : Still s) (hu : pc.updating = true)
    (hpc : PcOk { s.goto c pc with evt := e } pc) : Tidy { s.goto c pc with evt := e } := by
  have hne : ∀ d, d ≠ c → ((s.goto c pc).calls d).updating = false := fun d hd => by
    rw [goto_calls_ne hd]
    exact (hq d).1
  refine ⟨fun c₁ c₂ h₁ h₂ => ?_, fun hno => ?_, fun d => ?_⟩
  · have hc : ∀ d, ((s.goto c pc).calls d).updating = true → d = c := fun d hd => by
      by_contra hdc
      rw [hne d hdc] at hd
      cases hd
    rw [hc c₁ h₁, hc c₂ h₂]
  · have hc := hno c
    rw [goto_calls_self, hu] at hc
    cases hc
  · by_cases hd : d = c
    · subst hd
      rw [goto_calls_self]
      exact hpc
    · rw [goto_calls_ne hd]
      exact (h.pcs d).setEvt (hq d).1 (hq d).2

theorem Tidy.connect {evt : Option EvtId} {bit : Int} (hi : s.calls c = .idle)
    (hq : evt ≠ none ∧ 0 ≤ bit ∧ bit ≤ 31 ∧ s.evt = none → bit < 30 ∧ Still s) : Tidy (connect c evt bit s) := by
  have hold : (s.calls c).updating = false := by rw [hi]; rfl
  unfold Notify.connect
  cases evt with
  | none => exact h.goto rfl hold trivial
  | some v =>
    dsimp only
    split
    · exact h.goto rfl hold trivial
    · split
      · exact h.ask.goto rfl hold trivial
      · rename_i hin he
        obtain ⟨hb, hstill⟩ := hq ⟨Option.some_ne_none v, by omega, by omega, not_not.mp he⟩
        have hlt : bit.toNat < 30 := by omega
        have hst : Still { s with asked := (v, bit.toNat) :: s.asked } := hstill
        exact h.ask.setEvt hst rfl ⟨rfl, List.mem_cons_self, hlt⟩

theorem Tidy.disconnect {evt : Option EvtId} (hi : s.calls c = .idle)
    (hq : evt ≠ none ∧ s.evt = evt → Still s) : Tidy (disconnect c evt s) := by
  have hold : (s.calls c).updating = false := by rw [hi]; rfl
  unfold Notify.disconnect
  split
  · exact h.goto rfl hold trivial
  · split
    · exact h.goto rfl hold trivial
    · rename_i hne he
      exact h.setEvt (hq ⟨hne, not_not.mp he⟩) rfl rfl

/-- When the one update ends there is none. -/
theorem Tidy.none_updating {r : Int} (hu : (s.calls c).updating = true) (d : Fin n) :
    ((s.goto c (.returned r)).calls d).updating = false := by
  by_cases hd : d = c
  · subst hd
    rw [goto_calls_self]
    rfl
  · rw [goto_calls_ne hd]
    by_contra hup
    exact hd (h.one d c (Bool.not_eq_false _ ▸ hup) hu)

/-- The store that ends a connect or a disconnect. -/
theorem Tidy.endUpdate {b : Nat} {r : Int} (hu : (s.calls c).updating = true)
    (hb : ∀ v, s.evt = some v → (v, b) ∈ s.asked ∧ b < 30) :
    Tidy { s.goto c (.returned r) with bitno := b } := by
  have hnone := h.none_updating (r := r) hu
  refine ⟨fun c₁ _ h₁ _ => ?_, fun _ v hv => hb v hv, fun d => ?_⟩
  · rw [show (_ : Pc).updating = false from hnone c₁] at h₁
    cases h₁
  · by_cases hd : d = c
    · subst hd
      rw [goto_calls_self]
      trivial
    · have hd' := hnone d
      rw [goto_calls_ne hd] at hd' ⊢
      have hpd := h.pcs d
      generalize s.calls d = p at hd' hpd
      cases p with
      | connecting v b => cases hd'
      | disconnecting => cases hd'
      | loadedEvt ctx evt => exact ⟨hpd.1, hnone⟩
      | _ => exact hpd

theorem Tidy.storeBit (hs : storeBit c s = some s') : Tidy s' := by
  have hc := h.pcs c
  unfold Notify.storeBit at hs
  cases hp : s.calls c with
  | connecting v b =>
    rw [hp] at hs hc
    cases hs
    refine h.endUpdate (by rw [hp]; rfl) fun v' hv' => ?_
    rw [hc.1] at hv'
    cases hv'
    exact hc.2
  | disconnecting =>
    rw [hp] at hs hc
    cases hs
    refine h.endUpdate (by rw [hp]; rfl) fun v' hv' => ?_
    rw [show s.evt = none from hc] at hv'
    cases hv'
  | _ =>
    rw [hp] at hs
    cases hs

end

/-! ## a connection -/

/-- The object is connected to bit `b` of `v`. -/
structure Connected (v : EvtId) (b : Nat) (s : State n) : Prop where
  evt : s.evt = some v
  bitno : s.bitno = b
  lt : b < 30
  none : ∀ d, (s.calls d).updating = false

/-- A call that started under the connection. -/
def Follows (v : EvtId) (b : Nat) : Pc → Prop
  | .loadedEvt _ evt => evt = some v
  | .loaded _ evt m => evt = some v ∧ m = b
  | .notified true raised => raised = some (v, b)
  | _ => True

/-- What a step does to a connected object: the connection stays, and so do
the calls that follow it. -/
structure Carries (v : EvtId) (b : Nat) (s s' : State n) : Prop where
  connected : Connected v b s'
  follows : ∀ d, Follows v b (s.calls d) → Follows v b (s'.calls d)

variable {v : EvtId} {b : Nat}

/-- A connect that returned left the object connected. -/
theorem Tidy.connected (h : Tidy s) (hp : s.calls c = .connecting v b)
    (hs : Notify.storeBit c s = some s') : Connected v b s' := by
  have hc := h.pcs c
  rw [hp] at hc
  simp only [Notify.storeBit, hp] at hs
  cases hs
  exact ⟨hc.1, rfl, hc.2.2, h.none_updating (by rw [hp]; rfl)⟩

theorem Connected.goto (h : Connected v b s) (hu : pc.updating = false)
    (hpc : Follows v b (s.calls c) → Follows v b pc) : Carries v b s (s.goto c pc) := by
  refine ⟨⟨h.evt, h.bitno, h.lt, fun d => ?_⟩, fun d hd => ?_⟩
  · by_cases hdc : d = c
    · subst hdc
      rw [goto_calls_self, hu]
    · rw [goto_calls_ne hdc]
      exact h.none d
  · by_cases hdc : d = c
    · subst hdc
      rw [goto_calls_self]
      exact hpc hd
    · rw [goto_calls_ne hdc]
      exact hd

theorem Carries.withKernel {k : Kernel} (h : Carries v b s s') : Carries v b s { s' with kernel := k } :=
  ⟨{ h.connected with }, h.follows⟩

variable {evt : Option EvtId}

theorem Connected.connect {bit : Int} (h : Connected v b s) :
    Carries v b s (connect c evt bit s) := by
  unfold Notify.connect
  cases evt with
  | none => exact h.goto rfl fun _ => trivial
  | some v' =>
    dsimp only
    split
    · exact h.goto rfl fun _ => trivial
    · rw [if_pos (by rw [h.evt]; exact Option.some_ne_none v)]
      have ha : Connected v b { s with asked := (v', bit.toNat) :: s.asked } :=
        { h with }
      have hg : Carries v b { s with asked := (v', bit.toNat) :: s.asked }
          ({ s with asked := (v', bit.toNat) :: s.asked }.goto c (.returned isixEbusy)) :=
        ha.goto rfl fun _ => trivial
      exact ⟨hg.connected, hg.follows⟩

theorem Connected.disconnect (h : Connected v b s) (hne : s.evt ≠ evt) :
    Carries v b s (disconnect c evt s) := by
  unfold Notify.disconnect
  rw [if_pos hne]
  split
  · exact h.goto rfl fun _ => trivial
  · exact h.goto rfl fun _ => trivial

/-! ## steps -/

section

variable [Config] {kind : Kind} {x : SemId} {e : Step n}

theorem next_kernel {e : Event} (hs : next kind x (.kernel e) s = some s') : ∃ k, s' = { s with kernel := k } := by
  obtain ⟨-, hs⟩ := Option.ite_none_right_eq_some.mp hs
  cases hk : Isix.step e s.kernel with
  | error p =>
    rw [hk] at hs
    cases hs
  | ok r =>
    rw [hk] at hs
    exact ⟨_, (Option.some.inj hs).symm⟩

/-- Where the signal leaves the call. -/
theorem signal_goto {ctx : Context} (hs : signal kind x c ctx s = some s') :
    ∃ k pc, s' = { s with kernel := k }.goto c pc ∧
      (pc = .stored ctx ∨ pc = .notified false none ∨ kind = .sem ∧ pc = .loaded ctx s.evt s.bitno) := by
  unfold Notify.signal at hs
  cases hk : isixpSemSignal (some x) ctx s.kernel with
  | error p =>
    rw [hk] at hs
    cases hs
  | ok r =>
    rw [hk] at hs
    cases kind with
    | fifo => exact ⟨_, _, (Option.some.inj hs).symm, .inl rfl⟩
    | sem =>
      dsimp only at hs
      split at hs
      · exact ⟨_, _, (Option.some.inj hs).symm, .inr (.inl rfl)⟩
      · exact ⟨_, _, (Option.some.inj hs).symm, .inr (.inr ⟨rfl, rfl⟩)⟩

/-- What the call has raised of the values it has read. -/
theorem raise_goto {ctx : Context} {m : Nat} (hs : raise c ctx evt m s = some s') :
    ∃ k raised, s' = { s.goto c (.notified true raised) with kernel := k } ∧
      ((evt = none ∨ 31 < m) ∧ raised = none ∨
        ∃ v, evt = some v ∧ m ≤ 31 ∧ raised = (eventToSet (some v) (1#32 <<< m)).map fun v => (v, m)) := by
  unfold Notify.raise at hs
  cases evt with
  | none => exact ⟨_, _, (Option.some.inj hs).symm, .inl ⟨.inl rfl, rfl⟩⟩
  | some v =>
    dsimp only at hs
    split at hs
    next hm =>
      cases hk : isixpEventSet (some v) (1#32 <<< m) ctx s.kernel with
      | error p =>
        rw [hk] at hs
        cases hs
      | ok r =>
        rw [hk] at hs
        exact ⟨_, _, (Option.some.inj hs).symm, .inr ⟨v, rfl, hm, rfl⟩⟩
    next hm => exact ⟨_, _, (Option.some.inj hs).symm, .inl ⟨.inr (Nat.lt_of_not_le hm), rfl⟩⟩

theorem Tidy.signal {ctx : Context} (h : Tidy s) (hi : s.calls c = .idle)
    (hq : kind = .sem → ∀ d, (s.calls d).updating = false) (hs : signal kind x c ctx s = some s') :
    Tidy s' := by
  have hold : (s.calls c).updating = false := by rw [hi]; rfl
  obtain ⟨k, pc, rfl, rfl | rfl | ⟨hsem, rfl⟩⟩ := signal_goto hs
  · exact h.withKernel.goto rfl hold trivial
  · exact h.withKernel.goto rfl hold fun v b hr => by cases hr
  · exact h.withKernel.goto rfl hold fun v hv => h.bitno (hq hsem) v hv

theorem Tidy.raise {ctx : Context} {b : Nat} (h : Tidy s)
    (hp : s.calls c = .loaded ctx evt b) (hs : raise c ctx evt b s = some s') : Tidy s' := by
  have hold : (s.calls c).updating = false := by rw [hp]; rfl
  have hc := h.pcs c
  rw [hp] at hc
  obtain ⟨k, raised, rfl, hr⟩ := raise_goto hs
  refine Tidy.withKernel (h.goto rfl hold ?_)
  intro v' b' hr'
  rcases hr with ⟨-, rfl⟩ | ⟨v, rfl, -, rfl⟩
  · cases hr'
  · obtain ⟨w, hw, he⟩ := Option.map_eq_some_iff.mp hr'
    cases he
    cases (Option.ite_none_left_eq_some.mp hw).2
    exact (hc _ rfl).1

theorem Tidy.step (h : Tidy s) (ht : Takes kind x (Apart kind) e s s') : Tidy s' := by
  obtain ⟨hs, hc⟩ := ht
  cases e with
  | connect c evt bit =>
    obtain ⟨hi, rfl⟩ := of_guard hs
    exact h.connect hi hc
  | disconnect c evt =>
    obtain ⟨hi, rfl⟩ := of_guard hs
    exact h.disconnect hi hc
  | storeBit c => exact h.storeBit hs
  | signal c ctx =>
    obtain ⟨hi, hs⟩ := Option.ite_none_right_eq_some.mp hs
    exact h.signal hi hc hs
  | loadEvt c =>
    cases hp : s.calls c with
    | stored ctx =>
      simp only [next, hp] at hs
      cases hs
      exact h.goto rfl (by rw [hp]; rfl) ⟨rfl, hc⟩
    | _ => simp only [next, hp, reduceCtorEq] at hs
  | loadBit c =>
    cases hp : s.calls c with
    | loadedEvt ctx evt =>
      simp only [next, hp] at hs
      cases hs
      have hpc := h.pcs c
      rw [hp] at hpc
      exact h.goto rfl (by rw [hp]; rfl) fun v hv => h.bitno hpc.2 v (hpc.1 ▸ hv)
    | _ => simp only [next, hp, reduceCtorEq] at hs
  | raise c =>
    cases hp : s.calls c with
    | loaded ctx evt b =>
      simp only [next, hp] at hs
      exact h.raise hp hs
    | _ => simp only [next, hp, reduceCtorEq] at hs
  | leave c =>
    cases hp : s.calls c with
    | returned r | notified st r =>
      simp only [next, hp] at hs
      cases hs
      exact h.goto rfl (by rw [hp]; rfl) trivial
    | _ => simp only [next, hp, reduceCtorEq] at hs
  | kernel e =>
    obtain ⟨k, rfl⟩ := next_kernel hs
    exact h.withKernel

/-- A write or signal that starts under the connection follows it. -/
theorem Connected.signal {ctx : Context} (h : Connected v b s) (hs : signal kind x c ctx s = some s') :
    Carries v b s s' ∧ Follows v b (s'.calls c) := by
  obtain ⟨k, pc, rfl, hpc⟩ := signal_goto hs
  have hk : Connected v b { s with kernel := k } := { h with }
  have hf : pc.updating = false ∧ Follows v b pc := by
    rcases hpc with rfl | rfl | ⟨-, rfl⟩
    · exact ⟨rfl, trivial⟩
    · exact ⟨rfl, trivial⟩
    · exact ⟨rfl, h.evt, h.bitno⟩
  have hgo := hk.goto (c := c) hf.1 fun _ => hf.2
  refine ⟨⟨hgo.connected, hgo.follows⟩, ?_⟩
  rw [goto_calls_self]
  exact hf.2

theorem Connected.raise {ctx : Context} {m : Nat} (h : Connected v b s)
    (hp : s.calls c = .loaded ctx evt m) (hs : raise c ctx evt m s = some s') : Carries v b s s' := by
  obtain ⟨k, raised, rfl, hr⟩ := raise_goto hs
  refine (h.goto rfl fun hf => ?_).withKernel
  rw [hp] at hf
  obtain ⟨hv, rfl⟩ := hf
  rcases hr with ⟨rfl | hm, -⟩ | ⟨v', rfl, hm, rfl⟩
  · cases hv
  · exact absurd h.lt (by omega)
  · cases hv
    -- the bit is not a control bit, so the event takes it
    have hbit : ¬30 ≤ m := Nat.not_le_of_lt h.lt
    rw [eventToSet, if_neg (mt (refused_iff hm).mp hbit)]
    rfl

/-- **Step**: a connection that is not taken back stays. -/
theorem Connected.step (h : Connected v b s)
    (ht : Takes kind x (fun e s => Apart kind e s ∧ StaysConnected e s) e s s') : Carries v b s s' := by
  obtain ⟨hs, hc⟩ := ht
  cases e with
  | connect c evt bit =>
    obtain ⟨-, rfl⟩ := of_guard hs
    exact h.connect
  | disconnect c evt =>
    obtain ⟨-, rfl⟩ := of_guard hs
    exact h.disconnect hc.2
  | storeBit c =>
    have hno := h.none c
    simp only [next, storeBit] at hs
    cases hp : s.calls c with
    | connecting v b | disconnecting =>
      rw [hp] at hno
      cases hno
    | _ => simp only [hp, reduceCtorEq] at hs
  | signal c ctx =>
    obtain ⟨-, hs⟩ := Option.ite_none_right_eq_some.mp hs
    exact (h.signal hs).1
  | loadEvt c =>
    cases hp : s.calls c with
    | stored ctx =>
      simp only [next, hp] at hs
      cases hs
      exact h.goto rfl fun _ => h.evt
    | _ => simp only [next, hp, reduceCtorEq] at hs
  | loadBit c =>
    cases hp : s.calls c with
    | loadedEvt ctx evt =>
      simp only [next, hp] at hs
      cases hs
      refine h.goto rfl fun hf => ?_
      rw [hp] at hf
      exact ⟨hf, h.bitno⟩
    | _ => simp only [next, hp, reduceCtorEq] at hs
  | raise c =>
    cases hp : s.calls c with
    | loaded ctx evt m =>
      simp only [next, hp] at hs
      exact h.raise hp hs
    | _ => simp only [next, hp, reduceCtorEq] at hs
  | leave c =>
    cases hp : s.calls c with
    | returned r | notified st r =>
      simp only [next, hp] at hs
      cases hs
      exact h.goto rfl fun _ => trivial
    | _ => simp only [next, hp, reduceCtorEq] at hs
  | kernel e =>
    obtain ⟨k, rfl⟩ := next_kernel hs
    exact ⟨{ h with }, fun _ hd => hd⟩

/-! ## runs -/

/-- Apart from each other, and the connection is not taken back. -/
def Undisturbed (kind : Kind) (e : Step n) (s : State n) : Prop := Apart kind e s ∧ StaysConnected e s

instance (kind : Kind) (e : Step n) (s : State n) : Decidable (Undisturbed kind e s) := by
  unfold Undisturbed
  infer_instance

theorem Connected.run (h : Connected v b s) (hr : Run (Takes kind x (Undisturbed kind)) s s') :
    Connected v b s' :=
  hr.keeps (fun _ _ _ hc ht => (hc.step ht).connected) h

/-- A call that follows the connection follows it to its end. -/
theorem Connected.run_follows (h : Connected v b s) (hr : Run (Takes kind x (Undisturbed kind)) s s')
    (hd : Follows v b (s.calls d)) : Follows v b (s'.calls d) := by
  have hboth : Connected v b s' ∧ Follows v b (s'.calls d) :=
    hr.keeps (P := fun s => Connected v b s ∧ Follows v b (s.calls d))
      (fun _ _ _ hc ht => ⟨(hc.1.step ht).connected, (hc.1.step ht).follows d hc.2⟩) ⟨h, hd⟩
  exact hboth.2

/-- **Notification**: in every run of calls that keep apart, a write or signal
raises only bits that a connect asked for; and once a connect to bit `b` of `v`
returned, until a disconnect takes it back, every write or signal that starts
and stores something has raised that bit when it is over. -/
theorem notifies_connected (kind : Kind) (x : SemId) {k : Kernel}
    (hr : Run (Takes kind x (Apart kind)) (State.init k) s) :
    (∀ c st v b, s.calls c = .notified st (some (v, b)) → (v, b) ∈ s.asked) ∧
    (∀ c v b s₁ s₂ s₃ s₄ d ctx r, s.calls c = .connecting v b →
      next kind x (.storeBit c) s = some s₁ →
      Run (Takes kind x (Undisturbed kind)) s₁ s₂ →
      Takes kind x (Undisturbed kind) (.signal d ctx) s₂ s₃ →
      Run (Takes kind x (Undisturbed kind)) s₃ s₄ →
      s₄.calls d = .notified true r → r = some (v, b)) := by
  have h : Tidy s := hr.keeps (fun _ _ _ ht hs => ht.step hs) .init
  refine ⟨fun c st v b hp => ?_, fun c v b s₁ s₂ s₃ s₄ d ctx r hp h₁ h₁₂ h₂₃ h₃₄ hd => ?_⟩
  · have hc := h.pcs c
    rw [hp] at hc
    exact hc v b rfl
  · have hconn : Connected v b s₂ := (h.connected hp h₁).run h₁₂
    obtain ⟨-, hs⟩ := Option.ite_none_right_eq_some.mp h₂₃.1
    have hstart : Follows v b (s₃.calls d) := (hconn.signal hs).2
    have hend := (hconn.step h₂₃).connected.run_follows h₃₄ hstart
    rw [hd] at hend
    exact hend

end

/-- A semaphore and an event, and one task running. -/
def semAndEvent : List Event :=
  [.boot (.taskCreate 1 false false), .boot (.semCreate 0 0), .boot .eventCreate, .start]

/-- A fifo connected to bit 5: the write of another task raises it. -/
theorem notifies_connected_write : ∃ (_ : Config) (k : Kernel) (s s₁ s₃ s₄ : State 2)
    (r : Option (EvtId × Nat)), Reachable BootOk k ∧
    Run (Takes .fifo 0 (Apart .fifo)) (State.init k) s ∧ s.calls 0 = .connecting 0 5 ∧
    next .fifo 0 (.storeBit 0) s = some s₁ ∧
    Takes .fifo 0 (Undisturbed .fifo) (.signal 1 none) s₁ s₃ ∧
    Run (Takes .fifo 0 (Undisturbed .fifo)) s₃ s₄ ∧
    s₄.calls 1 = .notified true r ∧ r = some (0, 5) := by
  let _ := smallConfig
  obtain ⟨k, hk, hrun⟩ := exists_reachable (C := BootOk) semAndEvent
    (P := fun k =>
      ((runList (guarded (next .fifo 0) (Apart .fifo)) [.connect 0 (some 0) 5] (State.init k : State 2)).any
        fun s => decide (s.calls 0 = .connecting 0 5 ∧
          ((next .fifo 0 (.storeBit 0) s).any fun s₁ => decide (
            ((guarded (next .fifo 0) (Undisturbed .fifo) (.signal 1 none) s₁).any fun s₃ => decide (
              ((runList (guarded (next .fifo 0) (Undisturbed .fifo)) [.loadEvt 1, .loadBit 1, .raise 1] s₃).any
                fun s₄ => decide (s₄.calls 1 = .notified true (some (0, 5)))) = true)) = true)) = true))
      = true) (by decide +kernel)
  obtain ⟨s, hs, hp, h₁⟩ := exists_run (meeting_of_guarded fun _ _ _ => id) _ hrun
  obtain ⟨s₁, hs₁, h₃⟩ := exists_step (fun _ _ _ => id) h₁
  obtain ⟨s₃, hs₃, h₄⟩ := exists_step (meeting_of_guarded fun _ _ _ => id) h₃
  obtain ⟨s₄, hs₄, hd⟩ := exists_run (meeting_of_guarded fun _ _ _ => id) _ h₄
  have hr := (notifies_connected .fifo 0 hs).2 0 0 5 s₁ s₁ s₃ s₄ 1 none _ hp hs₁ (.refl s₁) hs₃ hs₄ hd
  exact ⟨smallConfig, k, s, s₁, s₃, s₄, _, hk, hs, hp, hs₁, hs₃, hs₄, hd, hr⟩

/-- What goes wrong otherwise.  A connect to control bit 31 returns, and a
write raises nothing.  A signal between the two stores of a connect to bit 5
raises bit 0, which nobody asked for.  A disconnect that is late with its store
undoes a connect that returned after it. -/
theorem notification_lost : ∃ (_ : Config) (k : Kernel), Reachable BootOk k ∧
    (∃ s s₁ s₄ : State 2, Run (Takes .fifo 0 fun _ _ => True) (State.init k) s ∧
      s.calls 0 = .connecting 0 31 ∧ next .fifo 0 (.storeBit 0) s = some s₁ ∧
      s₁.calls 0 = .returned isixEok ∧ Run (Takes .fifo 0 StaysConnected) s₁ s₄ ∧
      s₄.calls 1 = .notified true none) ∧
    (∃ s : State 2, Run (Takes .sem 0 fun _ _ => True) (State.init k) s ∧
      s.calls 1 = .notified true (some (0, 0)) ∧ s.asked = [(0, 5)]) ∧
    (∃ s s₁ s₄ : State 3, Run (Takes .fifo 0 fun _ _ => True) (State.init k) s ∧
      s.calls 0 = .connecting 0 7 ∧ next .fifo 0 (.storeBit 0) s = some s₁ ∧
      s₁.calls 0 = .returned isixEok ∧ Run (Takes .fifo 0 StaysConnected) s₁ s₄ ∧
      s₄.calls 2 = .notified true none) := by
  let _ := smallConfig
  obtain ⟨k, hk, hctrl, hstale, hlate⟩ := exists_reachable (C := BootOk) semAndEvent
    (P := fun k =>
      ((runList (guarded (next .fifo 0) fun _ _ => True) [.connect 0 (some 0) 31] (State.init k : State 2)).any
        fun s => decide (s.calls 0 = .connecting 0 31 ∧
          ((next .fifo 0 (.storeBit 0) s).any fun s₁ => decide (s₁.calls 0 = .returned isixEok ∧
            ((runList (guarded (next .fifo 0) StaysConnected)
              [.signal 1 none, .loadEvt 1, .loadBit 1, .raise 1] s₁).any
                fun s₄ => decide (s₄.calls 1 = .notified true none)) = true)) = true)) = true ∧
      ((runList (guarded (next .sem 0) fun _ _ => True) [.connect 0 (some 0) 5, .signal 1 none, .raise 1]
        (State.init k : State 2)).any
        fun s => decide (s.calls 1 = .notified true (some (0, 0)) ∧ s.asked = [(0, 5)])) = true ∧
      ((runList (guarded (next .fifo 0) fun _ _ => True)
        [.connect 0 (some 0) 5, .storeBit 0, .leave 0, .disconnect 1 (some 0), .connect 0 (some 0) 7]
        (State.init k : State 3)).any
        fun s => decide (s.calls 0 = .connecting 0 7 ∧
          ((next .fifo 0 (.storeBit 0) s).any fun s₁ => decide (s₁.calls 0 = .returned isixEok ∧
            ((runList (guarded (next .fifo 0) StaysConnected)
              [.storeBit 1, .signal 2 none, .loadEvt 2, .loadBit 2, .raise 2] s₁).any
                fun s₄ => decide (s₄.calls 2 = .notified true none)) = true)) = true)) = true)
    (by decide +kernel)
  refine ⟨smallConfig, k, hk, ?_, exists_run (meeting_of_guarded fun _ _ _ => id) _ hstale, ?_⟩
  · obtain ⟨s, hs, hp, h₁⟩ := exists_run (meeting_of_guarded fun _ _ _ => id) _ hctrl
    obtain ⟨s₁, hs₁, hr, h₄⟩ := exists_step (fun _ _ _ => id) h₁
    obtain ⟨s₄, hs₄, hd⟩ := exists_run (meeting_of_guarded fun _ _ _ => id) _ h₄
    exact ⟨s, s₁, s₄, hs, hp, hs₁, hr, hs₄, hd⟩
  · obtain ⟨s, hs, hp, h₁⟩ := exists_run (meeting_of_guarded fun _ _ _ => id) _ hlate
    obtain ⟨s₁, hs₁, hr, h₄⟩ := exists_step (fun _ _ _ => id) h₁
    obtain ⟨s₄, hs₄, hd⟩ := exists_run (meeting_of_guarded fun _ _ _ => id) _ h₄
    exact ⟨s, s₁, s₄, hs, hp, hs₁, hr, hs₄, hd⟩

end Isix.Notify
