import Isix.Co.Timers
import Isix.Properties.CoNodes

/-!
# Isix.Properties.CoTimers

Timeouts of up to `T` ticks and calls of `process_due_timers` at most `G`
ticks apart.  Between two calls every live deadline lies in a window of `T + G`
ticks behind the last call.  As long as the window is not wider than `2 ^ 31`
ticks the signed comparison orders it as real time does, the timer list is
sorted, and a call ends exactly the waits whose time is over.

With all the timeouts that the calls accept it is not so: a timeout of more
than `2 ^ 31` ticks counts as over at once, and one that is shorter may be put
before a timer that is overdue, which then is not looked at.
-/

namespace Isix.Co

open Function (update)
open Runs (Run Reached reached of_guard)

/-! ## the comparison -/

/-- Times less than half a turn apart compare as their low 32 bits do. -/
theorem Scheduler.timeBefore_toTick {a b : Nat} (h : a < b + 2 ^ 31) (h' : b ≤ a + 2 ^ 31) :
    timeBefore (toTick a) (toTick b) = decide (a < b) := by
  unfold timeBefore toInt32 toTick tickMod
  simp only [Int.bmod]
  congr 1
  simp only [eq_iff_iff]
  omega

variable {T G : Nat} {s s' : TimerState} {n m : NodeId}

namespace TimerState

/-! ## the invariant -/

/-- The deadline of a timer, in real time, lies in the window behind the last call. -/
structure InWindow (T : Nat) (s : TimerState) (n : NodeId) (d : Nat) : Prop where
  due : s.due n = some d
  deadline : (s.sched.node n).deadline = toTick d
  low : s.called < d
  high : d ≤ s.sched.time + T

structure Sorted (T : Nat) (s : TimerState) : Prop where
  linked : s.sched.Linked
  called_le : s.called ≤ s.sched.time
  window : ∀ n ∈ s.sched.timers, ∃ d, s.InWindow T n d
  sorted : s.sched.timers.Pairwise fun a b => ∀ d e, s.due a = some d → s.due b = some e → d ≤ e
  timed : ∀ n d, (s.sched.node n).state = .waiting → (s.sched.node n).onAbort = false → s.due n = some d →
    n ∈ s.sched.timers

theorem sorted_init (time : Nat) : Sorted T (init time) where
  linked := Scheduler.linked_init time
  called_le := Nat.le_refl _
  window := by simp [init]
  sorted := List.Pairwise.nil
  timed := by simp [init]

/-! ## the steps -/

/-- Nodes that are woken leave the list, the others stay as they are. -/
theorem Sorted.moved {t : Scheduler} (hs : s.Sorted T) (hm : Scheduler.Moved s.sched t) :
    Sorted T { s with sched := t } := by
  refine ⟨hm.linked, hm.time ▸ hs.called_le, fun n hn => ?_, hs.sorted.sublist hm.timers, fun n d hn ha hd => ?_⟩
  · have hsame := hm.node_of_waiting (hm.linked.timers_waiting n hn)
    obtain ⟨d, hd⟩ := hs.window n (hm.timers.mem hn)
    exact ⟨d, hd.due, hsame ▸ hd.deadline, hd.low, hm.time ▸ hd.high⟩
  · have hsame := hm.node_of_waiting hn
    exact hm.timed n (hs.timed n d (hsame ▸ hn) (hsame ▸ ha) hd) hn

/-- The node of an awaiter that is made is on no list. -/
theorem Sorted.awaiter {onAbort : Bool} (hs : s.Sorted T) (hn : (s.sched.node n).state = .idle) :
    Sorted T (s.awaiter n onAbort) := by
  have hother : ∀ {m}, (s.sched.node m).state = .waiting → m ≠ n := by
    rintro m hm rfl
    rw [hn] at hm
    cases hm
  have hstate : ∀ m, ((s.awaiter n onAbort).sched.node m).state = (s.sched.node m).state := by
    intro m
    by_cases hm : m = n
    · subst hm
      simp [TimerState.awaiter]
    · simp [TimerState.awaiter, hm]
  refine ⟨hs.linked.congr _ _ hstate, hs.called_le, fun m hm => ?_, hs.sorted, fun m d hm ha hd => ?_⟩
  · obtain ⟨d, hd⟩ := hs.window m hm
    refine ⟨d, hd.due, ?_, hd.low, hd.high⟩
    simpa [TimerState.awaiter, hother (hs.linked.timers_waiting m hm)] using hd.deadline
  · rw [hstate] at hm
    exact hs.timed m d hm (by simpa [TimerState.awaiter, hother hm] using ha) hd

theorem Sorted.children {kids : List Handle} (hs : s.Sorted T) : Sorted T (s.children n kids) :=
  ⟨{ hs.linked with }, hs.called_le, fun m hm => (hs.window m hm).imp fun _ hd => { hd with }, hs.sorted, hs.timed⟩

/-- Sorted insertion, for a comparison that agrees with the order of the due times. -/
theorem pairwise_insertBefore {deadline : NodeId → Nat} {due : NodeId → Option Nat} {d : Nat} {l : List NodeId}
    (hn : due n = some d)
    (hl : l.Pairwise fun a b => ∀ d e, due a = some d → due b = some e → d ≤ e)
    (hcmp : ∀ m ∈ l, ∃ e, due m = some e ∧ Scheduler.timeBefore (deadline n) (deadline m) = decide (d < e)) :
    (Scheduler.insertBefore deadline n l).Pairwise fun a b => ∀ d e, due a = some d → due b = some e → d ≤ e := by
  induction l with
  | nil => simp [Scheduler.insertBefore]
  | cons a l ih =>
    obtain ⟨ha, hl'⟩ := List.pairwise_cons.mp hl
    obtain ⟨e, he, hbefore⟩ := hcmp a (by simp)
    unfold Scheduler.insertBefore
    rw [hbefore]
    split
    · have hde : d < e := by simpa using ‹decide (d < e) = true›
      refine List.pairwise_cons.mpr ⟨fun b hb d' e' hd' he' => ?_, hl⟩
      rw [hn] at hd'
      cases hd'
      rcases List.mem_cons.mp hb with rfl | hb
      · rw [he] at he'
        cases he'
        exact Nat.le_of_lt hde
      · exact Nat.le_trans (Nat.le_of_lt hde) (ha b hb e e' he he')
    · have hed : e ≤ d := by simpa using ‹¬decide (d < e) = true›
      refine List.pairwise_cons.mpr ⟨fun b hb d' e' hd' he' => ?_, ih hl' fun m hm => hcmp m (by simp [hm])⟩
      rw [he] at hd'
      cases hd'
      rcases Scheduler.mem_insertBefore.mp hb with rfl | hb
      · rw [hn] at he'
        cases he'
        exact hed
      · exact ha b hb e e' he he'

theorem toTick_add (a b : Nat) : toTick (toTick a + b) = toTick (a + b) := by
  exact Nat.mod_add_mod a tickMod b

/-- The due times and the deadlines of the nodes that are timed already stay. -/
theorem InWindow.suspend {d : Nat} (hm : s.InWindow T m d) (hne : m ≠ n) (h : Handle) (timeout : Nat) (r : Int) :
    (s.suspend n h timeout r).InWindow T m d := by
  unfold TimerState.suspend
  rw [Scheduler.suspend_eq]
  exact ⟨by simpa [hne] using hm.due, by simpa [hne] using hm.deadline, hm.low, hm.high⟩

/-- A timeout that is registered not long after the last call is comparable with all the others. -/
theorem Sorted.suspend {h : Handle} {timeout : Nat} {r : Int} (hTG : T + G ≤ 2 ^ 31) (hs : s.Sorted T)
    (hG : s.sched.time ≤ s.called + G) (hn : (s.sched.node n).state = .idle) (ht : timeout ≤ T) :
    Sorted T (s.suspend n h timeout r) := by
  have hother : ∀ m ∈ s.sched.timers, m ≠ n := fun m hm he => hs.linked.not_mem_timers hn (he ▸ hm)
  have hdue : ∀ m ∈ s.sched.timers, (s.suspend n h timeout r).due m = s.due m := fun m hm =>
    Function.update_of_ne (hother m hm) _ _
  have hsorted : s.sched.timers.Pairwise fun a b => ∀ d e,
      (s.suspend n h timeout r).due a = some d → (s.suspend n h timeout r).due b = some e → d ≤ e :=
    hs.sorted.imp_of_mem fun ha hb hab => by rwa [hdue _ ha, hdue _ hb]
  have htime : (s.suspend n h timeout r).sched.time = s.sched.time := by
    simp [TimerState.suspend, Scheduler.suspend_eq]
  have hlow : s.called ≤ (s.suspend n h timeout r).sched.time := htime ▸ hs.called_le
  have hold : ∀ m d, m ≠ n → ((s.suspend n h timeout r).sched.node m).state = .waiting →
      ((s.suspend n h timeout r).sched.node m).onAbort = false → (s.suspend n h timeout r).due m = some d →
      m ∈ s.sched.timers := by
    intro m d hne hm ha hd
    refine hs.timed m d ?_ ?_ ?_
    · simpa [TimerState.suspend, Scheduler.suspend_eq, hne] using hm
    · simpa [TimerState.suspend, Scheduler.suspend_eq, hne] using ha
    · simpa [TimerState.suspend, hne] using hd
  by_cases hinf : timeout = timeInfinite
  · have htimers : (s.suspend n h timeout r).sched.timers = s.sched.timers := by
      simp [TimerState.suspend, Scheduler.suspend_eq, hinf]
    refine ⟨hs.linked.suspend hn, hlow, ?_, ?_, ?_⟩
    · intro m hm
      rw [htimers] at hm
      obtain ⟨d, hd⟩ := hs.window m hm
      exact ⟨d, hd.suspend (hother m hm) ..⟩
    · rwa [htimers]
    · intro m d hm ha hd
      rw [htimers]
      refine hold m d ?_ hm ha hd
      rintro rfl
      simp [TimerState.suspend, hinf] at hd
  · have htimers : (s.suspend n h timeout r).sched.timers = Scheduler.insertBefore
        (fun m => ((s.suspend n h timeout r).sched.node m).deadline) n s.sched.timers := by
      simp [TimerState.suspend, Scheduler.suspend_eq, hinf]
    have hnew : (s.suspend n h timeout r).InWindow T n (s.sched.time + timeout) := by
      refine ⟨by simp [TimerState.suspend, hinf], ?_, ?_, ?_⟩
      · simp [TimerState.suspend, Scheduler.suspend_eq, Scheduler.suspended, hinf, Scheduler.jiffies, toTick_add]
      · have : 0 < timeout := Nat.pos_of_ne_zero hinf
        show s.called < _
        omega
      · rw [htime]
        omega
    refine ⟨hs.linked.suspend hn, hlow, ?_, ?_, ?_⟩
    · intro m hm
      rw [htimers] at hm
      cases Scheduler.mem_insertBefore.mp hm with
      | inl he =>
        subst he
        exact ⟨_, hnew⟩
      | inr hm =>
        obtain ⟨d, hd⟩ := hs.window m hm
        exact ⟨d, hd.suspend (hother m hm) ..⟩
    · rw [htimers]
      refine pairwise_insertBefore hnew.due hsorted fun m hm => ?_
      obtain ⟨e, he⟩ := hs.window m hm
      have he' := he.suspend (hother m hm) h timeout r
      refine ⟨e, he'.due, ?_⟩
      rw [hnew.deadline, he'.deadline]
      have := he.low
      have := he.high
      exact Scheduler.timeBefore_toTick (by omega) (by omega)
    · intro m d hm ha hd
      rw [htimers, Scheduler.mem_insertBefore]
      by_cases he : m = n
      · exact .inl he
      · exact .inr (hold m d he hm ha hd)

/-! ## a call -/

/-- No wait that is aborted in a call at `now` cancels the coroutine of the node. -/
def Spared (now : Nat) (due : NodeId → Option Nat) (t : Scheduler) (n : NodeId) : Prop :=
  ∀ m ∈ t.timers, (t.node m).onAbort = true → (∀ e, due m = some e → e ≤ now) → ¬t.Cancels m (t.node n).h

/-- What a call at `now` leaves of the timers. -/
structure Fired (now : Nat) (due : NodeId → Option Nat) (t t' : Scheduler) : Prop where
  linked : t'.Linked
  time : t'.time = t.time
  timers : t'.timers.Sublist t.timers
  later : ∀ n ∈ t'.timers, ∀ d, due n = some d → now < d
  /-- a node that still waits has its timer, or it has an `on_abort` that was called -/
  waiting : ∀ n, (t'.node n).state = .waiting →
    t'.node n = t.node n ∧ (n ∈ t.timers → n ∈ t'.timers ∨ (t.node n).onAbort = true)
  settled : ∀ n, (t.node n).state ≠ .waiting → t'.node n = t.node n
  spared : ∀ n ∈ t.timers, (t.node n).onAbort = false → Spared now due t n → ∀ d, due n = some d →
    t'.node n = if d ≤ now then { t.node n with state := .ready, result := toInt16 (t.node n).timeoutResult }
      else t.node n

/-- Nothing is due. -/
theorem Fired.none {now : Nat} {due : NodeId → Option Nat} {t : Scheduler} (ht : t.Linked)
    (hlater : ∀ n ∈ t.timers, ∀ d, due n = some d → now < d) : Fired now due t t where
  linked := ht
  time := rfl
  timers := .refl _
  later := hlater
  waiting _ _ := ⟨rfl, .inl⟩
  settled _ _ := rfl
  spared n hn _ _ d hd := (if_neg (Nat.not_le_of_lt (hlater n hn d hd))).symm

section

variable {now : Nat} {due : NodeId → Option Nat} {t t₁ t' : Scheduler} {a : NodeId} {l : List NodeId}

theorem Spared.moved (hn : Spared now due t n) (hm : Scheduler.Moved { t with timers := l } t₁)
    (hl : l.Sublist t.timers) : Spared now due t₁ n := by
  intro m hmem ha hdue hc
  rw [hm.onAbort_eq] at ha
  rw [hm.h_eq] at hc
  exact hn m (hl.mem (hm.timers.mem hmem)) ha hdue (hc.congr hm.kids hm.h_eq hm.onAbort_eq)

/-- An abort leaves the coroutines alone that it does not cancel. -/
theorem abort_spares (ht : Scheduler.Linked { t with timers := l }) (hn : ¬t.Cancels a (t.node n).h) :
    (Scheduler.abort a { t with timers := l }).node n = t.node n := by
  have hC : ∀ m, t.Cancels a (t.node m).h → (t.node m).onAbort = true → ∀ c ∈ t.kids m, t.Cancels a c :=
    fun m hc ha c hk => .nested hc ha hk
  refine (Scheduler.Linked.abort (s := { t with timers := l }) (P := fun u => u.node n = t.node n) hC
    (fun u m _ hu _ hc => ?_) ht rfl fun c hc => .child hc).2
  have hne : n ≠ m := by
    rintro rfl
    exact hn (hu ▸ hc)
  rw [Scheduler.wake_node_of_ne hne, hu]

/-- The timer in front is due: its node is woken, or its wait is aborted. -/
theorem Fired.cons (ht : t.Linked) (htimers : t.timers = a :: l) (hdue : ∀ d, due a = some d → d ≤ now)
    (hm : Scheduler.Moved { t with timers := l } t₁) (hf : Fired now due t₁ t')
    (ha : (t₁.node a).state = .waiting → (t.node a).onAbort = true)
    (hfront : (t.node a).onAbort = false →
      t₁.node a = { t.node a with state := .ready, result := toInt16 (t.node a).timeoutResult })
    (hkeep : ∀ n ∈ l, Spared now due t n → t₁.node n = t.node n) : Fired now due t t' := by
  have hsub : l.Sublist t.timers := htimers ▸ List.sublist_cons_self a l
  refine ⟨hf.linked, hf.time.trans hm.time, hf.timers.trans (hm.timers.trans hsub), hf.later, ?_, ?_, ?_⟩
  · intro n hn
    obtain ⟨hsame, hstay⟩ := hf.waiting n hn
    rw [hsame] at hn
    have hsame₁ : t₁.node n = t.node n := hm.node_of_waiting hn
    refine ⟨hsame.trans hsame₁, fun hmem => ?_⟩
    rw [htimers] at hmem
    rcases List.mem_cons.mp hmem with rfl | hmem
    · exact .inr (ha hn)
    · rw [← hsame₁]
      exact hstay (hm.timed n hmem hn)
  · intro n hn
    have hsame : t₁.node n = t.node n := (hm.node n).resolve_right fun h => hn h.1
    rw [← hsame] at hn ⊢
    exact hf.settled n hn
  · intro n hmem hab hsp d hd
    rw [htimers] at hmem
    rcases List.mem_cons.mp hmem with rfl | hmem
    · rw [if_pos (hdue d hd), hf.settled n (by rw [hfront hab]; simp), hfront hab]
    · have hsame := hkeep n hmem hsp
      have hw : (t₁.node n).state = .waiting := by rw [hsame]; exact ht.timers_waiting n (hsub.mem hmem)
      have hall := hf.spared n (hm.timed n hmem hw) (by rwa [hsame]) (hsp.moved hm hsub) d hd
      rwa [hsame] at hall

/-- The loop stops at the first timer that is not due, and the later ones are not due either. -/
theorem fired_fireDue {fuel : Nat} (ht : t.Linked) (hfuel : t.timers.length ≤ fuel)
    (hl : t.timers.Pairwise fun a b => ∀ d e, due a = some d → due b = some e → d ≤ e)
    (hcmp : ∀ m ∈ t.timers, ∃ e, due m = some e ∧
      Scheduler.timeBefore (toTick now) (t.node m).deadline = decide (now < e)) :
    Fired now due t (t.fireDue (toTick now) fuel) := by
  induction fuel generalizing t with
  | zero =>
    refine .none ht fun n hn => ?_
    rw [List.length_eq_zero_iff.mp (Nat.le_zero.mp hfuel)] at hn
    cases hn
  | succ fuel ih =>
    rw [Scheduler.fireDue]
    cases htimers : t.timers with
    | nil => exact .none ht fun n hn => by rw [htimers] at hn; cases hn
    | cons a l =>
      obtain ⟨hfirst, hl'⟩ := List.pairwise_cons.mp (htimers ▸ hl)
      obtain ⟨e, he, hbefore⟩ := hcmp a (by simp [htimers])
      have hsub : l.Sublist t.timers := htimers ▸ List.sublist_cons_self a l
      dsimp only
      rw [hbefore]
      by_cases hnow : now < e
      · rw [if_pos (decide_eq_true hnow)]
        refine .none ht fun n hn d hd => ?_
        rcases List.mem_cons.mp (htimers ▸ hn) with rfl | hn
        · rw [he] at hd
          cases hd
          exact hnow
        · exact Nat.lt_of_lt_of_le hnow (hfirst n hn e d he hd)
      · rw [if_neg (by simpa using hnow)]
        have hdue : ∀ d, due a = some d → d ≤ now := fun d hd => by
          rw [he] at hd
          cases hd
          omega
        -- what the loop goes on with
        have hrest : ∀ {t₁}, Scheduler.Moved { t with timers := l } t₁ →
            Fired now due t₁ (t₁.fireDue (toTick now) fuel) := by
          intro t₁ hm
          have hlen : l.length ≤ fuel := by
            rw [htimers] at hfuel
            exact Nat.le_of_succ_le_succ hfuel
          refine ih hm.linked (Nat.le_trans hm.timers.length_le hlen) (hl'.sublist hm.timers) fun m hmem => ?_
          rw [hm.node_of_waiting (hm.linked.timers_waiting m hmem)]
          exact hcmp m (hsub.mem (hm.timers.mem hmem))
        have hlinked := ht.unlink hsub
        have hwait : (t.node a).state = .waiting := ht.timers_waiting a (by simp [htimers])
        have hal : a ∉ l := (List.nodup_cons.mp (htimers ▸ ht.timers_nodup)).1
        split
        next hab =>
          have hm := hlinked.abort_moved a
          exact Fired.cons ht htimers hdue hm (hrest hm) (fun _ => hab)
            (fun hno => absurd (hab.symm.trans hno) (by decide))
            fun n hn hsp => abort_spares hlinked (hsp a (by simp [htimers]) hab hdue)
        next hab =>
          have hm : Scheduler.Moved { t with timers := l } (Scheduler.wake a (t.node a).timeoutResult
            { t with timers := l }) := .wake hlinked
          have hself := Scheduler.wake_node_self (s := { t with timers := l }) (r := (t.node a).timeoutResult) hwait
          refine Fired.cons ht htimers hdue hm (hrest hm) (fun hw => ?_) (fun _ => hself) fun n hn _ => ?_
          · rw [hself] at hw
            cases hw
          · exact Scheduler.wake_node_of_ne (s := { t with timers := l }) fun he => hal (he ▸ hn)

end

/-- No timer is overdue by half a turn of the counter. -/
def Prompt (s : TimerState) : Prop := ∀ n ∈ s.sched.timers, ∀ d ∈ s.due n, s.sched.time < d + 2 ^ 31

instance (s : TimerState) : Decidable s.Prompt := List.decidableBAll _ _

theorem Sorted.prompt (hG : G ≤ 2 ^ 31) (hs : s.Sorted T) (ht : s.sched.time ≤ s.called + G) : s.Prompt := by
  intro n hn d hd
  obtain ⟨d', hd'⟩ := hs.window n hn
  have hdd : d' = d := Option.some.inj (hd'.due.symm.trans (Option.mem_def.mp hd))
  have := hd'.low
  omega

theorem Sorted.fired (hT : T ≤ 2 ^ 31) (hs : s.Sorted T) (hp : s.Prompt) :
    Fired s.sched.time s.due s.sched s.sched.processDueTimers := by
  refine fired_fireDue hs.linked (Nat.le_refl _) hs.sorted fun m hm => ?_
  obtain ⟨d, hd⟩ := hs.window m hm
  refine ⟨d, hd.due, ?_⟩
  rw [hd.deadline]
  have := hp m hm d hd.due
  have := hd.high
  exact Scheduler.timeBefore_toTick (by omega) (by omega)

theorem Sorted.call (hT : T ≤ 2 ^ 31) (hs : s.Sorted T) (hp : s.Prompt) :
    Sorted T { s with sched := s.sched.processDueTimers, called := s.sched.time } := by
  have hf := hs.fired hT hp
  refine ⟨hf.linked, hf.time.symm ▸ Nat.le_refl _, fun n hn => ?_, hs.sorted.sublist hf.timers, fun n d hn ha hd => ?_⟩
  · obtain ⟨d, hd⟩ := hs.window n (hf.timers.mem hn)
    refine ⟨d, hd.due, ?_, hf.later n hn d hd.due, ?_⟩
    · rw [(hf.waiting n (hf.linked.timers_waiting n hn)).1]
      exact hd.deadline
    · rw [hf.time]
      exact hd.high
  · obtain ⟨hsame, hstay⟩ := hf.waiting n hn
    have ha' : (s.sched.node n).onAbort = false := by rwa [← hsame]
    exact (hstay (hs.timed n d (hsame ▸ hn) ha' hd)).resolve_right (by simp [ha'])

theorem Sorted.resume {t : Scheduler} (hs : s.Sorted T) (h : s.sched.resume = some (n, t)) :
    Sorted T { s with sched := t } := by
  have hlinked := hs.linked.resume h
  obtain ⟨rest, hr, rfl⟩ := Scheduler.exists_of_resume h
  have hn : (s.sched.node n).state = .ready := (hs.linked.ready_iff n).mp (by simp [hr])
  refine ⟨hlinked, hs.called_le, ?_, hs.sorted, ?_⟩
  · intro m hm
    have hne : m ≠ n := by
      rintro rfl
      have hw := hs.linked.timers_waiting m hm
      rw [hn] at hw
      cases hw
    obtain ⟨d, hd⟩ := hs.window m hm
    exact ⟨d, hd.due, by simpa [hne] using hd.deadline, hd.low, hd.high⟩
  · intro m d hm ha hd
    have hne : m ≠ n := by
      rintro rfl
      simp at hm
    exact hs.timed m d (by simpa [hne] using hm) (by simpa [hne] using ha) hd

theorem Sorted.pass (hs : s.Sorted T) (ticks : Nat) :
    Sorted T { s with sched := { s.sched with time := s.sched.time + ticks } } := by
  refine ⟨hs.linked.congr _ _ fun _ => rfl, Nat.le_add_right_of_le hs.called_le, ?_, hs.sorted, hs.timed⟩
  intro n hn
  obtain ⟨d, hd⟩ := hs.window n hn
  exact ⟨d, hd.due, hd.deadline, hd.low, Nat.le_trans hd.high (by simp)⟩

/-- `Sorted`, not long after a call. -/
structure Recent (T G : Nat) (s : TimerState) : Prop extends Sorted T s where
  time_le : s.sched.time ≤ s.called + G

theorem Recent.step {e : TimerEvent} (hTG : T + G ≤ 2 ^ 31) (hs : s.Recent T G) (h : TimerStep T G e s s') :
    s'.Recent T G := by
  have hsorted := hs.toSorted
  cases e with
  | suspend n c timeout r =>
    obtain ⟨⟨hn, ht⟩, rfl⟩ := of_guard h
    refine ⟨hsorted.suspend hTG hs.time_le hn ht, ?_⟩
    simpa [TimerState.suspend, Scheduler.suspend_eq] using hs.time_le
  | awaiter n onAbort =>
    obtain ⟨hn, rfl⟩ := of_guard h
    exact ⟨hsorted.awaiter hn, hs.time_le⟩
  | children n kids =>
    cases h
    exact ⟨hsorted.children, hs.time_le⟩
  | wake n r =>
    cases h
    exact ⟨hsorted.moved (.wake hsorted.linked), by simpa using hs.time_le⟩
  | cancel c =>
    cases h
    have hm := hsorted.linked.cancelWait_moved s.sched.waiting.length c
    exact ⟨hsorted.moved hm, hm.time ▸ hs.time_le⟩
  | resume =>
    obtain ⟨⟨n, t⟩, hr, rfl⟩ := Option.map_eq_some_iff.mp h
    refine ⟨hsorted.resume hr, ?_⟩
    obtain ⟨rest, -, rfl⟩ := Scheduler.exists_of_resume hr
    exact hs.time_le
  | pass k =>
    obtain ⟨hk, rfl⟩ := of_guard h
    exact ⟨hsorted.pass k, hk⟩
  | call =>
    cases h
    have hp := hsorted.prompt (by omega) hs.time_le
    refine ⟨hsorted.call (by omega) hp, ?_⟩
    rw [(hsorted.fired (by omega) hp).time]
    exact Nat.le_add_right _ _

theorem recent_of_run {time : Nat} (hTG : T + G ≤ 2 ^ 31) (h : Run (TimerStep T G) (init time) s) : s.Recent T G :=
  h.keeps (fun _ _ _ hs hstep => Recent.step hTG hs hstep) ⟨sorted_init time, Nat.le_add_right _ _⟩

end TimerState

open TimerState

/-- **Timeouts are exact**: in a run with timeouts of up to `T` ticks and calls of `process_due_timers`
at most `G` ticks apart, where `T + G ≤ 2 ^ 31`, a wait without an `on_abort` whose timeout is over at the time `d` is
ended by a call of `process_due_timers` exactly if the call is made at `d` or later, unless the call aborts a wait
that cancels the coroutine.  It is then ready with the result of its timeout; before, the call leaves it as it is. -/
theorem timeouts_exact (T G time : Nat) (hTG : T + G ≤ 2 ^ 31) (s : TimerState)
    (h : Run (TimerStep T G) (init time) s) (n : NodeId) (d : Nat) (hn : (s.sched.node n).state = .waiting)
    (hd : s.due n = some d) (hab : (s.sched.node n).onAbort = false) (hsp : Spared s.sched.time s.due s.sched n) :
    (d ≤ s.sched.time → s.sched.processDueTimers.node n =
      { s.sched.node n with state := .ready, result := toInt16 (s.sched.node n).timeoutResult }) ∧
    (s.sched.time < d → s.sched.processDueTimers.node n = s.sched.node n ∧
      n ∈ s.sched.processDueTimers.timers) := by
  have hs := recent_of_run hTG h
  have hf := hs.toSorted.fired (by omega) (hs.toSorted.prompt (by omega) hs.time_le)
  have hmem := hs.timed n d hn hab hd
  have hnode := hf.spared n hmem hab hsp d hd
  constructor
  · intro hle
    rwa [if_pos hle] at hnode
  · intro hlt
    rw [if_neg (Nat.not_le_of_lt hlt)] at hnode
    exact ⟨hnode, ((hf.waiting n (by rwa [hnode])).2 hmem).resolve_right (by simp [hab])⟩

/-- A sleep of ten ticks, looked at after five and after ten. -/
def shortSleep : Reached (TimerStep 10 5) (init 0) fun s =>
    (s.sched.node 0).state = .waiting ∧ s.due 0 = some 10 ∧ s.sched.time = 10 ∧ (s.sched.node 0).onAbort = false ∧
      s.sched.timers = [0] :=
  reached (fun _ _ _ h => h) [.suspend 0 7 10 isixEok, .pass 5, .call, .pass 5] (by decide +kernel)

theorem shortSleep_ends : ∃ s, Run (TimerStep 10 5) (init 0) s ∧ s.due 0 = some 10 ∧ s.sched.time = 10 ∧
    (s.sched.processDueTimers.node 0).state = .ready := by
  obtain ⟨s, hrun, hn, hd, ht, hab, htimers⟩ := shortSleep
  have hsp : Spared s.sched.time s.due s.sched 0 := by
    intro m hm ha
    rw [htimers, List.mem_singleton] at hm
    rw [hm, hab] at ha
    cases ha
  have h := (timeouts_exact 10 5 0 (by decide) s hrun 0 10 hn hd hab hsp).1 (by omega)
  exact ⟨s, hrun, hd, ht, by rw [h]⟩

/-- The timer of a wait with an `on_abort` cancels the child; the wait itself goes on. -/
example : ∃ s, Run (TimerStep 10 10) (init 0) s ∧ s.due 0 = some 10 ∧ s.sched.time = 10 ∧
    (s.sched.processDueTimers.node 0).state = .waiting ∧
    (s.sched.processDueTimers.node 1).result = isixEcanceled :=
  Runs.exists_run (fun _ _ _ h => h)
    [.awaiter 0 true, .suspend 0 7 10 isixEtimeout, .suspend 1 8 0 isixEok, .children 0 [8], .pass 10] (by decide +kernel)

/-- A timeout of more than half a turn of the counter. -/
def longSleep : Reached (TimerStep (2 ^ 32 - 2) (2 ^ 31 - 1)) (init 0) fun s =>
    ((s.sched.node 0).state = .waiting ∧ s.due 0 = some (2 ^ 31 + 1)) ∧
    s.sched.time = 0 ∧ (s.sched.processDueTimers.node 0).state = .ready :=
  reached (fun _ _ _ h => h) [.suspend 0 7 (2 ^ 31 + 1) isixEok] (by decide +kernel)

/-- A sleep of `2 ^ 31 + 1` ticks is over at the first call of `process_due_timers`. -/
theorem longSleep_ends_early : ∃ s, Run (TimerStep (2 ^ 32 - 2) (2 ^ 31 - 1)) (init 0) s ∧
    ((s.sched.node 0).state = .waiting ∧ s.due 0 = some (2 ^ 31 + 1)) ∧
    s.sched.time = 0 ∧ (s.sched.processDueTimers.node 0).state = .ready := longSleep.exists

end Isix.Co
