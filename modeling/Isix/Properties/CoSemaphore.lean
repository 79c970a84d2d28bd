import Isix.Co.Semaphore
import Isix.Properties.CoQueue

/-!
# Isix.Properties.CoSemaphore

Tokens of a coroutine semaphore.  Over every run the count stays between zero
and the limit, a take returns `ISIX_EOK` exactly if one token was consumed for
it, and no take that began later than a waiting one gets a token before it.

A signal is dropped when the count is at the limit, even if coroutines wait
for the tokens that the dispatch has not handed out yet.  As long as no signal
meets this (`Spare`), a signal is dropped only if the semaphore is full with
nobody waiting, and a burst of signals releases as many waiters.
-/

namespace Isix.Co.Semaphore

open Queue (Fair Takes)
open Runs (Run Reached reached Meeting meeting_of_guarded runList runList_append run_of_runList of_guard of_guard_map)

variable {limit : Int} {s s' : State} {n : NodeId}

/-! ## the invariant -/

structure Conserves (limit : Int) (s : State) : Prop where
  linked : s.sched.Linked
  count_nonneg : 0 ≤ s.count
  count_le : s.count ≤ limit
  takes : Takes s.tokens s.ticket s.takes s.served s.sched
  returned : ∀ p ∈ s.returned, Fair p
  /-- tokens and waiters meet in a dispatch -/
  prompt : s.waiters ≠ [] → 0 < s.count → s.queued = true ∨ s.dispatching = true

theorem conserves_init {time : Nat} {initial : Int} (h₀ : 0 ≤ initial) (hl : initial ≤ limit) :
    Conserves limit (.init time initial) where
  linked := Scheduler.linked_init time
  count_nonneg := h₀
  count_le := hl
  takes := Queue.takes_init
  returned := by simp [State.init]
  prompt := by simp [State.init, State.waiters]

/-! ## the steps -/

section

variable (hs : Conserves limit s)

include hs

theorem Conserves.signal : Conserves limit (signal limit s) := by
  unfold Semaphore.signal
  split
  · have := hs.count_nonneg
    exact ⟨hs.linked, by show 0 ≤ s.count + 1; omega, by show s.count + 1 ≤ limit; omega, hs.takes, hs.returned,
      fun _ _ => .inl rfl⟩
  · exact { hs with prompt := fun _ _ => .inl rfl }

theorem Conserves.answer {r : Int} (h : Fair (r, s.tokens n)) :
    Conserves limit (s.answer n r) :=
  { hs with returned := List.forall_mem_cons.mpr ⟨h, hs.returned⟩ }

section

variable (hn : (s.sched.node n).state = .idle)

include hn

theorem Conserves.begin :
    Conserves limit (s.begin n) :=
  { hs with takes := hs.takes.begin hs.linked hn }

/-- A take that finds a token and no waiters. -/
theorem Conserves.fast (htick : s.ticket n < s.takes)
    (htok : s.tokens n = 0) (hw : s.waiters = []) (hc : 0 < s.count) :
    Conserves limit ((s.consume n).answer n isixEok) := by
  have hle := hs.count_le
  have hconsume : Conserves limit (s.consume n) :=
    ⟨hs.linked, by show 0 ≤ s.count - 1; omega, by show s.count - 1 ≤ limit; omega, hs.takes.fast hn htick hw,
      hs.returned, fun h => absurd hw h⟩
  exact hconsume.answer (.inl ⟨rfl, by simp [State.consume, htok]⟩)

theorem Conserves.take {h : Handle} {timeout : Nat} {cancelled foreign : Bool} :
    Conserves limit (take n h timeout cancelled foreign s) := by
  have hbegin := hs.begin hn
  have htick : (s.begin n).ticket n = s.takes := Function.update_self ..
  have htok : (s.begin n).tokens n = 0 := Function.update_self ..
  have hfail : ∀ {r : Int}, r ≠ isixEok → Fair (r, (s.begin n).tokens n) := fun hr => .inr ⟨hr, htok⟩
  unfold Semaphore.take
  simp only
  split
  next hfast => exact hbegin.fast hn (htick ▸ Nat.lt_succ_self _) htok (by simpa using hfast.1) hfast.2
  next hslow =>
    split
    · exact hbegin.answer (hfail (by decide))
    split
    · exact hbegin.answer (hfail (by decide))
    split
    · exact hbegin.answer (hfail (by decide))
    refine { hbegin with linked := hbegin.linked.waitOn hn, takes := ?_, prompt := ?_ }
    · refine hbegin.takes.wait htok (htick ▸ Nat.lt_succ_self _) ?_ ?_
      · intro m hm
        have hne : m ≠ n := fun he => hs.linked.not_mem_waiters (by simp [hn]) (he ▸ hm)
        have := hs.takes.begun m hm
        simpa [State.begin, hne] using this
      · intro b hb
        rw [htick]
        exact hs.takes.served_begun b hb
    · intro _ hpos
      refine hbegin.prompt ?_ hpos
      intro hempty
      exact hslow ⟨by simp [hempty], hpos⟩

end

theorem Conserves.serve (hd : s.dispatching = true) : Conserves limit (serve s) := by
  unfold Semaphore.serve
  cases hw : s.waiters with
  | nil => exact { hs with prompt := fun h => absurd hw h }
  | cons n rest =>
    simp only
    split
    · have := hs.count_le
      exact ⟨hs.linked.wake, by show 0 ≤ s.count - 1; omega, by show s.count - 1 ≤ limit; omega,
        hs.takes.serve hs.linked hw, hs.returned, fun _ _ => .inr hd⟩
    · exact { hs with prompt := fun _ h => absurd h ‹_› }

theorem Conserves.step {e : Event} (h : Step limit e s s') : Conserves limit s' := by
  cases e with
  | signal =>
    cases h
    exact hs.signal
  | tryTake =>
    obtain ⟨hpos, rfl⟩ := of_guard h
    have := hs.count_le
    exact ⟨hs.linked, by show 0 ≤ s.count - 1; omega, by show s.count - 1 ≤ limit; omega, hs.takes, hs.returned,
      fun hw _ => hs.prompt hw hpos⟩
  | take n c timeout cancelled foreign =>
    obtain ⟨⟨-, hn, -⟩, rfl⟩ := of_guard h
    exact hs.take hn
  | dispatch =>
    obtain ⟨-, rfl⟩ := of_guard h
    exact { hs with prompt := fun _ _ => .inr rfl }
  | serve =>
    obtain ⟨hd, rfl⟩ := of_guard h
    exact hs.serve hd
  | resume =>
    obtain ⟨-, ⟨n, t⟩, hr, rfl⟩ := of_guard_map h
    obtain ⟨rest, hready, ht⟩ := Scheduler.exists_of_resume hr
    have hn := (hs.linked.ready_iff n).mp (by simp [hready])
    have hans := hs.answer (hs.takes.ready n hn)
    refine ⟨hs.linked.resume hr, hans.count_nonneg, hans.count_le, hs.takes.resume hr, hans.returned, ?_⟩
    rw [ht]
    exact hs.prompt
  | background b =>
    obtain ⟨-, t, hb, rfl⟩ := of_guard_map h
    obtain ⟨hlinked, htakes⟩ := hs.takes.background hs.linked hb
    have hsub := hs.linked.background_waiters hb 0
    exact { hs with
      linked := hlinked, takes := htakes
      prompt := fun hw hpos => hs.prompt (fun h0 => hw (List.sublist_nil.mp (h0 ▸ hsub))) hpos }

end

theorem conserves_of_run {time : Nat} {initial : Int} (h₀ : 0 ≤ initial) (hl : initial ≤ limit)
    (h : Run (Step limit) (.init time initial) s) : Conserves limit s :=
  h.keeps (fun _ _ _ hs hstep => hs.step hstep) (conserves_init h₀ hl)

/-! ## dropped signals -/

/-- The condition on the steps: a signal that finds a coroutine waiting finds the count below the limit. -/
def Spare (limit : Int) : Event → State → Prop
  | .signal, s => s.waiters ≠ [] → s.count < limit
  | _, _ => True

instance (limit : Int) : ∀ e s, Decidable (Spare limit e s)
  | .signal, s => inferInstanceAs (Decidable (s.waiters ≠ [] → s.count < limit))
  | .tryTake, _ | .take .., _ | .dispatch, _ | .serve, _ | .resume, _ | .background _, _ => isTrue trivial

/-- Only a signal is dropped. -/
theorem dropped_of_step {e : Event} (h : Step limit e s s') (he : e ≠ .signal) : s'.dropped = s.dropped := by
  cases e with
  | signal => exact absurd rfl he
  | tryTake =>
    obtain ⟨-, rfl⟩ := of_guard h
    rfl
  | take n c timeout cancelled foreign =>
    obtain ⟨-, rfl⟩ := of_guard h
    unfold take
    simp only
    split
    · rfl
    split
    · rfl
    split
    · rfl
    split <;> rfl
  | dispatch =>
    obtain ⟨-, rfl⟩ := of_guard h
    rfl
  | serve =>
    obtain ⟨-, rfl⟩ := of_guard h
    unfold serve
    split
    · rfl
    · split <;> rfl
  | resume =>
    obtain ⟨-, p, -, rfl⟩ := of_guard_map h
    rfl
  | background b =>
    obtain ⟨-, t, -, rfl⟩ := of_guard_map h
    rfl

theorem dropped_full {e : Event} (hd : ∀ m ∈ s.dropped, limit ≤ m) (h : Meeting (Step limit) (Spare limit) e s s') :
    ∀ m ∈ s'.dropped, limit ≤ m := by
  by_cases he : e = .signal
  · subst he
    obtain ⟨hstep, hspare⟩ := h
    cases hstep
    unfold signal
    split
    · exact hd
    next hfull =>
      intro m hm
      have hnone : s.waiters = [] := by
        by_contra hw
        exact hfull (hspare hw)
      rcases List.mem_cons.mp hm with rfl | hm
      · simpa [hnone] using hfull
      · exact hd m hm
  · rw [dropped_of_step h.1 he]
    exact hd

/-! ## a burst -/

theorem runList_signals (limit : Int) (k : Nat) (s : State) :
    ∃ s', runList (step limit) (List.replicate k .signal) s = some s' ∧ s'.sched = s.sched ∧
      s'.dispatching = s.dispatching ∧ (0 < k → s'.queued = true) ∧
      (s.count + k ≤ limit → s'.count = s.count + k) := by
  induction k generalizing s with
  | zero => exact ⟨s, rfl, rfl, rfl, nofun, fun _ => by simp⟩
  | succ k ih =>
    obtain ⟨s', hrun, hsched, hdisp, hqueued, hcount⟩ := ih (signal limit s)
    have hsig : (signal limit s).sched = s.sched ∧ (signal limit s).dispatching = s.dispatching ∧
        (signal limit s).queued = true := by
      unfold signal
      split <;> exact ⟨rfl, rfl, rfl⟩
    refine ⟨s', by simpa [List.replicate_succ, runList, step] using hrun, hsched.trans hsig.1, hdisp.trans hsig.2.1,
      fun _ => ?_, fun hle => ?_⟩
    · cases k with
      | zero =>
        cases hrun
        exact hsig.2.2
      | succ k => exact hqueued (Nat.succ_pos k)
    · have hone : (signal limit s).count = s.count + 1 := by
        unfold signal
        rw [if_pos (by push_cast at hle; omega)]
      rw [hcount (by rw [hone]; push_cast at hle; omega), hone]
      push_cast
      omega

/-- `k` rounds of the dispatch with `k` tokens and `k` waiters at least. -/
theorem runList_serves (limit : Int) (k : Nat) (hs : s.sched.Linked) (hd : s.dispatching = true) (hk : k ≤ s.waiters.length)
    (hc : k ≤ s.count) :
    ∃ s', runList (step limit) (List.replicate k .serve) s = some s' ∧ s'.dispatching = true ∧
      s'.count = s.count - k ∧ s'.waiters = s.waiters.drop k ∧ s'.sched.ready = s.sched.ready ++ s.waiters.take k := by
  induction k generalizing s with
  | zero => exact ⟨s, rfl, hd, by simp, by simp, by simp⟩
  | succ k ih =>
    cases hw : s.waiters with
    | nil => simp [hw] at hk
    | cons n rest =>
      have hn := hs.waiters_waiting 0 n (by rw [show s.sched.waiters 0 = n :: rest from hw]; simp)
      have hserve : serve s = { s.consume n with sched := s.sched.wake n isixEok } := by
        unfold serve
        rw [hw]
        simp only
        rw [if_pos (by push_cast at hc; omega)]
      have hwaiters : (serve s).waiters = rest := by
        rw [hserve]
        show (s.sched.wake n isixEok).waiters 0 = rest
        rw [Scheduler.wake_waiters hn, show s.sched.waiters 0 = n :: rest from hw]
        simp
      have hready : (serve s).sched.ready = s.sched.ready ++ [n] := by
        rw [hserve]
        exact Scheduler.wake_ready hn
      have hcount : (serve s).count = s.count - 1 := by
        rw [hserve]
        rfl
      have hdisp : (serve s).dispatching = true := by
        rw [hserve]
        exact hd
      obtain ⟨s', hrun, hd', hc', hw', hr'⟩ := ih (by rw [hserve]; exact hs.wake) hdisp
        (by rw [hwaiters]; simpa [hw] using hk) (by rw [hcount]; push_cast at hc; omega)
      refine ⟨s', ?_, hd', ?_, ?_, ?_⟩
      · simpa [List.replicate_succ, runList, step, hd] using hrun
      · rw [hc', hcount]
        push_cast
        omega
      · rw [hw', hwaiters]
        rfl
      · rw [hr', hready, hwaiters]
        simp

/-- The last round finds no waiter or no token. -/
theorem serve_end (h : s.waiters = [] ∨ s.count ≤ 0) : serve s = { s with dispatching := false } := by
  unfold serve
  cases hw : s.waiters with
  | nil => rfl
  | cons n rest =>
    simp only
    rw [if_neg]
    have := h.resolve_left (by simp [hw])
    omega

/-- **A burst**: `k` signals and then the dispatch, with nothing in between. -/
def burst (k : Nat) (s : State) : List Event :=
  List.replicate k .signal ++ .dispatch :: (List.replicate (min k s.waiters.length) .serve ++ [.serve])

theorem Conserves.burst {k : Nat} (hs : Conserves limit s) (hq : s.queued = false) (hd : s.dispatching = false)
    (hr : s.sched.running = none) (hk : 0 < k) (hlimit : s.waiters ≠ [] → k ≤ limit) :
    ∃ s', runList (Semaphore.step limit) (burst k s) s = some s' ∧ s'.dispatching = false ∧
      s'.sched.ready = s.sched.ready ++ s.waiters.take (min k s.waiters.length) ∧
      s'.waiters = s.waiters.drop (min k s.waiters.length) := by
  obtain ⟨s₁, hrun₁, hsched₁, hd₁, hq₁, hc₁⟩ := runList_signals limit k s
  have hzero : s.waiters ≠ [] → s.count = 0 := by
    intro hw
    by_contra hne
    have := hs.count_nonneg
    cases hs.prompt hw (by omega) with
    | inl h => simp [hq] at h
    | inr h => simp [hd] at h
  have hdispatch : Semaphore.step limit .dispatch s₁ = some { s₁ with queued := false, dispatching := true } := by
    simp [Semaphore.step, hq₁ hk, hd₁, hd, hsched₁, hr]
  have hwaiters₁ : State.waiters { s₁ with queued := false, dispatching := true } = s.waiters := by
    simp [State.waiters, hsched₁]
  have hready₁ : s₁.sched.ready = s.sched.ready := by rw [hsched₁]
  have hcount₁ : s.waiters ≠ [] → s₁.count = k := fun hw => by
    rw [hc₁ (by rw [hzero hw]; have := hlimit hw; omega), hzero hw, Int.zero_add]
  have hcount : (min k s.waiters.length : Nat) ≤ s₁.count := by
    by_cases hw : s.waiters = []
    · have := ((run_of_runList (fun _ _ _ h => h) _ hrun₁).keeps (fun _ _ _ hs hstep => hs.step hstep) hs).count_nonneg
      simpa [hw] using this
    · rw [hcount₁ hw]
      omega
  obtain ⟨s₂, hrun₂, hd₂, hc₂, hw₂, hr₂⟩ := runList_serves limit (min k s.waiters.length)
    (s := { s₁ with queued := false, dispatching := true }) (by simpa [hsched₁] using hs.linked) rfl
    (by rw [hwaiters₁]; omega) hcount
  rw [hwaiters₁] at hw₂ hr₂
  have hend : s₂.waiters = [] ∨ s₂.count ≤ 0 := by
    by_cases hlt : k < s.waiters.length
    · right
      have hw : s.waiters ≠ [] := by
        rintro h0
        simp [h0] at hlt
      rw [hc₂]
      rw [hcount₁ hw]
      omega
    · left
      rw [hw₂, List.drop_eq_nil_iff]
      omega
  refine ⟨{ s₂ with dispatching := false }, ?_, rfl, ?_, hw₂⟩
  · rw [Semaphore.burst, runList_append hrun₁, runList, hdispatch, Option.bind_some, runList_append hrun₂]
    simp [runList, Semaphore.step, hd₂, serve_end hend]
  · rw [hr₂, hready₁]

/-! ## the main result -/

/-- **Tokens are conserved**: in every run in which a signal that finds a coroutine waiting finds the
count below the limit, the count stays between zero and the limit; a take returned `ISIX_EOK` exactly if
one token was consumed for it, and no token otherwise; no take that got a token began after one that
still waits; a signal was dropped only if the tokens stored minus the coroutines waiting were at the limit;
and a burst of `k` signals before a dispatch releases the first `k` waiters, or all if they are fewer. -/
theorem tokens_conserved (time : Nat) (initial limit : Int) (h₀ : 0 ≤ initial) (hi : initial ≤ limit) (s : State)
    (h : Run (Meeting (Step limit) (Spare limit)) (.init time initial) s) :
    (0 ≤ s.count ∧ s.count ≤ limit) ∧
    (∀ p ∈ s.returned, p.1 = isixEok ∧ p.2 = 1 ∨ p.1 ≠ isixEok ∧ p.2 = 0) ∧
    (∀ b ∈ s.served, ∀ n ∈ s.waiters, b < s.ticket n) ∧
    (∀ m ∈ s.dropped, limit ≤ m) ∧
    ∀ k : Nat, 0 < k → s.queued = false → s.dispatching = false → s.sched.running = none →
      (s.waiters ≠ [] → k ≤ limit) →
      ∃ s', runList (step limit) (burst k s) s = some s' ∧ s'.dispatching = false ∧
        s'.sched.ready = s.sched.ready ++ s.waiters.take (min k s.waiters.length) ∧
        s'.waiters = s.waiters.drop (min k s.waiters.length) := by
  have hs := conserves_of_run h₀ hi (h.mono fun _ _ _ hstep => hstep.1)
  refine ⟨⟨hs.count_nonneg, hs.count_le⟩, hs.returned, hs.takes.first, ?_, ?_⟩
  · exact h.keeps (fun _ _ _ hd hstep => dropped_full hd hstep)
      (by simp [State.init])
  · intro k hk hq hd hr hlimit
    exact hs.burst hq hd hr hk hlimit

/-- A coroutine waits for a token of a semaphore with the limit one. -/
def oneWaits : Reached (Meeting (Step 1) (Spare 1)) (.init 0 0) fun s =>
    s.waiters = [0] ∧ s.queued = false ∧ s.dispatching = false ∧ s.sched.running = none :=
  reached (meeting_of_guarded fun _ _ _ h => h) [.background (.enter 7), .take 0 7 0 false false] (by decide +kernel)

theorem oneWaits_released : ∃ s s', Run (Meeting (Step 1) (Spare 1)) (.init 0 0) s ∧ s.waiters = [0] ∧
    runList (step 1) (burst 1 s) s = some s' ∧ s'.waiters = [] := by
  obtain ⟨s, hrun, hw, hq, hd, hr⟩ := oneWaits
  obtain ⟨s', hburst, -, -, hw'⟩ :=
    (tokens_conserved 0 0 1 (by decide) (by decide) s hrun).2.2.2.2 1 (by decide) hq hd hr (fun _ => by decide)
  exact ⟨s, s', hrun, hw, hburst, by rw [hw', hw]; rfl⟩

/-- Two coroutines wait, two signals come before the dispatch. -/
def twoWait : Reached (Step 1) (.init 0 0) fun s =>
    s.dropped = [-1] ∧ s.sched.ready = [0] ∧ s.waiters = [1] ∧ s.queued = false ∧ s.dispatching = false ∧ s.count = 0 :=
  reached (fun _ _ _ h => h)
    [.background (.enter 7), .take 0 7 0 false false, .background (.enter 8), .take 1 8 0 false false,
      .signal, .signal, .dispatch, .serve, .serve] (by decide +kernel)

/-- With the limit one a burst of two signals releases one of two waiters.  The second signal is dropped
although one token was stored and two coroutines waited. -/
theorem twoWait_one_released : ∃ s, Run (Step 1) (.init 0 0) s ∧
    s.dropped = [-1] ∧ s.sched.ready = [0] ∧ s.waiters = [1] ∧ s.queued = false ∧ s.dispatching = false ∧
    s.count = 0 := twoWait.exists

end Isix.Co.Semaphore
