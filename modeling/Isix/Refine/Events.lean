import Isix.Refine.Wake

/-!
# Isix.Refine.Events

The services of `Isix.Events` as paths of actions.
-/

namespace Isix

open Function (update)
open Kernel Outcome

variable {s : Kernel} {t : TaskId}

theorem isixpMaxPrio_candidate {u : TaskId} (ht : Candidate s t) (hu : Candidate s u) :
    Candidate s (isixpMaxPrio t u s) := by
  unfold isixpMaxPrio
  split
  · exact hu
  · exact ht

variable [Config] {s' : Kernel} {v : EvtId} {E : Panic → Prop} {A : Act → Core → Prop} {bits : Bits}

/-- The actions of the services called on the event `v`. -/
structure EventOk (A : Act → Core → Prop) (v : EvtId) : Prop where
  set : ∀ b c, A (.setEvent v b) c
  wake : ∀ t c, A (.wake t (some (.evt v)) (c.event v).toInt) c

theorem Does.setEvent {b : Bits} (h : Good s) (hA : A (.setEvent v b) s.toCore) :
    Does A s (s.setEvent v b) :=
  .book h rfl rfl rfl rfl hA trivial rfl rfl rfl
    (h.core.congr rfl rfl rfl rfl rfl rfl rfl rfl rfl rfl rfl fun w he => by cases w <;> exact he)

/-! ## setting and destroying -/

theorem eventSet_spec (hA : EventOk A v) (h : Good s) :
    Holds E (eventSet v bits s) fun r => Does A s r.1 ∧ Candidate r.1 r.2 ∧
      (∀ u, (s.task u).state.active → r.1.task u = s.task u) ∧ r.1.currp = s.currp ∧
      r.1.schrun = s.schrun ∧ r.1.nevt = s.nevt := by
  have h₁ : Does A s (s.setEvent v (s.event v ||| bits)) := .setEvent h (hA.set _ _)
  have hloop := Holds.foldlM (P := E) (f := eventSetOne v)
    (I := fun l acc => Swept A ∅ none (.evt v) (s.setEvent v (s.event v ||| bits)) l acc.s ∧
      Candidate acc.s acc.wkup) (s.lists (.evt v))
    (b := { s := s.setEvent v (s.event v ||| bits), wkup := s.currp, clr := 0#32 })
    ⟨.start h₁.ok, .inr rfl, h.core.task.currp_lt⟩ ?_
  · refine hloop.bind fun acc hacc => ?_
    obtain ⟨hsw, hcand⟩ := hacc
    have h₂ := h₁.trans hsw.leads
    refine ⟨h₂.trans (Does.setEvent h₂.ok (hA.set _ _)), hcand, hsw.active, hsw.currp, hsw.schrun,
      hsw.nevt⟩
  · rintro t l ⟨s₁, wkup, clr⟩ ⟨hsw, hcand⟩
    have hsit := hsw.leads.ok.wired.sits_of_mem hsw.head_mem
    obtain ⟨hst, b, ho⟩ := hsit.waits
    have hb : (s₁.task t).obj.evbits? = some b := by
      rw [ho]
      rfl
    unfold eventSetOne
    simp only [hb]
    split
    · rename_i hcheck
      refine (removeAndWakeup_leads hsw.leads.ok hsw.head_mem (.inr ⟨rfl, b, ho, hcheck⟩)
        (hA.wake _ _)).bind fun s₂ hs₂ => ?_
      refine ⟨hsw.round hs₂.1 hs₂.2, ?_⟩
      exact isixpMaxPrio_candidate (hs₂.2.candidate hcand) hs₂.2.woken.candidate
    · exact ⟨hsw.skip, hcand⟩

variable {evth : Option EvtId}

theorem isixpEventSet_does {ctx : Context} (hQ : Quiet A)
    (hA : ∀ v, evth = some v → EventOk A v) (h : Good s) :
    Holds E (isixpEventSet evth bits ctx s) fun r => Does A s r.1 := by
  unfold isixpEventSet
  split
  · exact Leads.refl h
  next v hv =>
    have hevth : evth = some v := (Option.ite_none_left_eq_some.mp hv).2
    refine (eventSet_spec (hA v hevth) h).bind fun r hr => ?_
    obtain ⟨h₁, hcand, -⟩ := hr
    refine (leaveCritical_does hQ h₁.ok fun w hw => ?_).bind fun s₂ h₂ => h₁.trans h₂
    cases hw
    exact hcand

theorem isixpEventClear_does (hA : ∀ v, evth = some v → EventOk A v)
    (h : Good s) : Holds E (isixpEventClear evth bits s) fun r => Does A s r.1 := by
  unfold isixpEventClear
  cases evth with
  | none => exact Leads.refl h
  | some v =>
    simp only
    split
    · exact Leads.refl h
    · exact Does.setEvent h ((hA v rfl).set _ _)

theorem isixEventDestroy_does {evh : Option EvtId} (hQ : Quiet A)
    (hA : ∀ v t c, evh = some v → A (.wake t (some (.evt v)) isixEdestroy) c) (h : Good s) :
    Holds E (isixEventDestroy evh s) fun r => Does A s r.1 := by
  cases evh with
  | none => exact Leads.refl h
  | some v =>
    have hloop := Holds.foldlM (P := E) (f := destroyEventOne)
      (I := fun l acc => Swept A ∅ none (.evt v) s l acc.1 ∧ Candidate acc.1 acc.2)
      (s.lists (.evt v)) (b := (s, s.currp)) ⟨.start h, .inr rfl, h.core.task.currp_lt⟩ ?_
    · refine hloop.bind fun acc hacc => ?_
      obtain ⟨hsw, hcand⟩ := hacc
      exact hsw.leads.trans (isixpDoReschedule_does hQ hsw.leads.ok hcand.1 hcand.2)
    · rintro t l ⟨s₁, wkup⟩ ⟨hsw, hcand⟩
      refine (removeAndWakeup_leads hsw.leads.ok hsw.head_mem (.inl rfl)
        (hA v _ _ rfl)).bind fun s₂ hs₂ => ?_
      exact ⟨hsw.round hs₂.1 hs₂.2,
        isixpMaxPrio_candidate (hs₂.2.candidate hcand) hs₂.2.woken.candidate⟩

/-! ## waiting -/

theorem eventSleep_spec {evbits : Bits} {tout : Nat} {frame : Frame} (h : Good s)
    (ha : (s.task s.currp).state.active) :
    Holds E (eventSleep v evbits tout frame s) fun s' =>
      Wired ∅ s' ∧ s'.toCore = (Act.sleep (.event v evbits tout frame)).apply s.toCore := by
  have hs := sleep_spec (E := E) (.event v evbits tout frame) rfl
    (f := fun y => { y with waitAborted := false })
    (g := fun y => { y with obj := .evbits evbits, frame := frame }) h ha (fun _ => rfl)
    (fun _ => ⟨rfl, rfl⟩) (fun _ => ⟨rfl, rfl⟩) fun _ _ _ => rfl
  exact hs.bind fun s₁ hs₁ => hs₁ _ (.inr ⟨rfl, rfl⟩)

theorem eventWaitBody_replies {clear all : Bool} {timeout start : Nat} (hQ : Quiet A)
    (hA : EventOk A v) (hK : ∀ n frame c, A (.sleep (.event v (waitBits bits clear all) n frame)) c)
    (h : Good s) (hcall : Caller s) (hv : v < s.nevt) (hb : bits &&& ctrlBits = 0#32)
    (ht : timeout < tickMod) : Holds E (eventWaitBody v bits clear all timeout start s) (Replies A s) := by
  have hsleep : ∀ n, n < tickMod →
      Holds E (eventWaitSleep v bits clear all timeout start n s) (Replies A s) := by
    intro n hn
    refine (eventSleep_spec h hcall.active).bind fun s₁ hs₁ => .blocked fun hrun => ?_
    have hvalid : (Sleep.event v (waitBits bits clear all) n
        (.eventWait v bits clear all timeout start)).valid s.toCore :=
      ⟨hv, hn, rfl, rfl, hb, ht⟩
    have h₁ : Does A s s₁ := .sleep h hcall hrun (hK n _ _) hvalid hs₁.1 hs₁.2
    exact h₁.trans (isixYield_does hQ h₁.ok)
  unfold eventWaitBody
  split
  · refine .of_does ?_
    split
    · exact Does.setEvent h (hA.set _ _)
    · exact Leads.refl h
  · split
    · exact .of_does (.refl h)
    · split
      · exact hsleep _ ht
      · simp only
        split
        · exact .of_does (.refl h)
        · exact hsleep _ (Nat.lt_of_le_of_lt (Nat.sub_le _ _) ht)

theorem isixEventWait_replies {clear all : Bool} {timeout start : Nat}
    (hQ : Quiet A) (hA : ∀ v, evth = some v → EventOk A v)
    (hK : ∀ v b n frame c, evth = some v → A (.sleep (.event v b n frame)) c) (h : Good s)
    (hcall : Caller s) (hv : ∀ v, evth = some v → v < s.nevt) (ht : timeout < tickMod) :
    Holds E (isixEventWait evth bits clear all timeout start s) (Replies A s) := by
  unfold isixEventWait
  cases evth with
  | none => exact .of_does (.refl h)
  | some v =>
    simp only
    split
    · exact .of_does (.refl h)
    · rename_i hb
      push Not at hb
      exact eventWaitBody_replies hQ (hA v rfl) (fun n f c => hK v _ n f c rfl) h hcall (hv v rfl)
        hb.2 ht

theorem isixEventSync_replies {bitsToSet : Bits} {timeout start : Nat}
    (hQ : Quiet A) (hA : ∀ v, evth = some v → EventOk A v)
    (hK : ∀ v b n frame c, evth = some v → A (.sleep (.event v b n frame)) c) (h : Good s)
    (hcall : Caller s) (hv : ∀ v, evth = some v → v < s.nevt) (ht : timeout < tickMod) :
    Holds E (isixEventSync evth bitsToSet bits timeout start s) (Replies A s) := by
  unfold isixEventSync
  cases evth with
  | none => exact .of_does (.refl h)
  | some v =>
    simp only
    split
    · exact .of_does (.refl h)
    · split
      · exact .of_does (.refl h)
      · rename_i hb
        push Not at hb
        refine (eventSet_spec (hA v rfl) h).bind fun r hr => ?_
        obtain ⟨s₁, wkup⟩ := r
        obtain ⟨h₁, hcand, hact, hcur, hrun, hn⟩ := hr
        have htask := hact s.currp hcall.active
        have hcall₁ : Caller s₁ := by
          refine ⟨?_, fun hr => ?_⟩
          · rw [show s₁.currp = s.currp from hcur, show s₁.task s.currp = _ from htask]
            exact hcall.active
          · rw [show s₁.currp = s.currp from hcur]
            exact hcall.not_idle (hrun ▸ hr)
        split
        · have h₂ := h₁.trans (Does.setEvent h₁.ok ((hA v rfl).set (s₁.event v &&& ~~~bits) _))
          exact .of_does (h₂.trans (isixpDoReschedule_does hQ h₂.ok hcand.1 hcand.2))
        · split
          · exact .of_does (h₁.trans (isixpDoReschedule_does hQ h₁.ok hcand.1 hcand.2))
          · refine (eventSleep_spec h₁.ok hcall₁.active).bind fun s₂ hs₂ => .blocked fun hrun' => ?_
            have hvalid : (Sleep.event v (waitBits bits true true) timeout
                (.eventSync v bits timeout start)).valid s₁.toCore := by
              refine ⟨?_, ht, rfl, rfl, hb.2, ht⟩
              rw [show s₁.nevt = s.nevt from hn]
              exact hv v rfl
            have h₂ : Does A s₁ s₂ := .sleep h₁.ok hcall₁ (hrun.trans hrun') (hK v _ _ _ _ rfl)
              hvalid hs₂.1 hs₂.2
            have h₃ := h₁.trans h₂
            have hcur₂ : s₂.currp = s₁.currp := by
              rw [hs₂.2]
              exact Act.sleep_currp
            have hn₂ : s₂.ntask = s₁.ntask := by
              rw [hs₂.2]
              exact Act.sleep_ntask
            refine h₃.trans ?_
            split
            · rename_i hne
              rw [hcur₂] at hne
              have hready : (s₂.task wkup).state = .ready := by
                rw [hs₂.2, Act.sleep_of_ne hne]
                exact hcand.1.resolve_right hne
              exact isixpDoReschedule_does hQ h₂.ok (.inl hready) (hn₂ ▸ hcand.2)
            · exact isixYield_does hQ h₂.ok

end Isix
