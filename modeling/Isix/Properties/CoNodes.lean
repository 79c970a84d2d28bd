import Isix.Co.Scheduler

/-!
# Isix.Properties.CoNodes

The lists of the coroutine scheduler agree with the states of the wait nodes
(`Linked`): a node is on `m_waiting` exactly while it waits, on `m_ready`
exactly while it is ready, and on the list of a primitive or on `m_timers`
only while it waits.  Every call keeps this.

What the scheduler does on its own is a sequence of wake-ups with a timeout or
with `ISIX_ECANCELED`; `Linked.background` is the rule that says so.
-/

namespace Isix.Co

open Function (update update_of_ne)

variable {s s' : Scheduler} {n m : NodeId} {q q' : ListId} {h : Handle} {r : Int}

theorem toInt16_eok : toInt16 isixEok = isixEok := by decide

/-- The lists agree with the states. -/
structure Scheduler.Linked (s : Scheduler) : Prop where
  waiting_iff : ∀ n, n ∈ s.waiting ↔ (s.node n).state = .waiting
  ready_iff : ∀ n, n ∈ s.ready ↔ (s.node n).state = .ready
  waiting_nodup : s.waiting.Nodup
  ready_nodup : s.ready.Nodup
  timers_nodup : s.timers.Nodup
  timers_waiting : ∀ n ∈ s.timers, (s.node n).state = .waiting
  waiters_nodup : ∀ q, (s.waiters q).Nodup
  waiters_waiting : ∀ q, ∀ n ∈ s.waiters q, (s.node n).state = .waiting
  /-- a node is on the list of one primitive -/
  waiters_once : ∀ q q' n, n ∈ s.waiters q → n ∈ s.waiters q' → q = q'

namespace Scheduler

theorem linked_init (time : Nat) : Linked { time } where
  waiting_iff := by simp
  ready_iff := by simp
  waiting_nodup := List.nodup_nil
  ready_nodup := List.nodup_nil
  timers_nodup := List.nodup_nil
  timers_waiting := by simp
  waiters_nodup _ := List.nodup_nil
  waiters_waiting := by simp
  waiters_once := by simp

/-! ## wake -/

theorem wake_of_not_waiting (hn : (s.node n).state ≠ .waiting) : s.wake n r = s := by
  unfold wake
  rw [if_pos hn]

theorem wake_of_waiting (hn : (s.node n).state = .waiting) :
    s.wake n r =
      { s with
        waiters := fun q => (s.waiters q).erase n
        timers := s.timers.erase n
        waiting := s.waiting.erase n
        node := update s.node n { s.node n with result := toInt16 r, state := .ready }
        ready := s.ready ++ [n] } := by
  unfold wake
  rw [if_neg (by simp [hn])]

theorem wake_node_of_ne (hm : m ≠ n) : (s.wake n r).node m = s.node m := by
  unfold wake
  split
  · rfl
  · exact update_of_ne hm _ _

theorem wake_node_self (hn : (s.node n).state = .waiting) :
    (s.wake n r).node n = { s.node n with result := toInt16 r, state := .ready } := by
  rw [wake_of_waiting hn]
  exact Function.update_self ..

@[simp] theorem wake_time : (s.wake n r).time = s.time := by
  unfold wake
  split <;> rfl

@[simp] theorem wake_running : (s.wake n r).running = s.running := by
  unfold wake
  split <;> rfl

theorem wake_waiters (hn : (s.node n).state = .waiting) : (s.wake n r).waiters q = (s.waiters q).erase n := by
  rw [wake_of_waiting hn]

theorem wake_ready (hn : (s.node n).state = .waiting) : (s.wake n r).ready = s.ready ++ [n] := by
  rw [wake_of_waiting hn]

namespace Linked

theorem wake (hs : s.Linked) : (s.wake n r).Linked := by
  by_cases hn : (s.node n).state = .waiting
  · rw [wake_of_waiting hn]
    have hready : n ∉ s.ready := fun hmem => by
      have := (hs.ready_iff n).mp hmem
      rw [hn] at this
      cases this
    refine ⟨?_, ?_, hs.waiting_nodup.erase n, ?_, hs.timers_nodup.erase n, ?_,
      fun q => (hs.waiters_nodup q).erase n, ?_, ?_⟩
    · intro m
      by_cases hm : m = n
      · subst hm
        simp [hs.waiting_nodup.mem_erase_iff]
      · simp [hs.waiting_nodup.mem_erase_iff, hm, hs.waiting_iff]
    · intro m
      by_cases hm : m = n
      · subst hm
        simp
      · simp [hm, hs.ready_iff]
    · exact List.nodup_append.mpr ⟨hs.ready_nodup, List.nodup_singleton n, fun a ha b hb => by
        rintro rfl
        exact hready (List.mem_singleton.mp hb ▸ ha)⟩
    · intro m hm
      obtain ⟨hne, hm⟩ := hs.timers_nodup.mem_erase_iff.mp hm
      simpa [hne] using hs.timers_waiting m hm
    · intro q m hm
      obtain ⟨hne, hm⟩ := (hs.waiters_nodup q).mem_erase_iff.mp hm
      simpa [hne] using hs.waiters_waiting q m hm
    · intro q q' m hm hm'
      exact hs.waiters_once q q' m (List.mem_of_mem_erase hm) (List.mem_of_mem_erase hm')
  · rwa [wake_of_not_waiting hn]

/-- `process_due_timers` unlinks the timer first; `wake` would have done it. -/
theorem wake_front {rest : List NodeId} (hs : s.Linked) (ht : s.timers = n :: rest) :
    Scheduler.wake n r { s with timers := rest } = s.wake n r := by
  have hn : (s.node n).state = .waiting := hs.timers_waiting n (by simp [ht])
  have hrest : n ∉ rest := (List.nodup_cons.mp (ht ▸ hs.timers_nodup)).1
  rw [wake_of_waiting (s := { s with timers := rest }) hn, wake_of_waiting hn]
  simp [ht, List.erase_of_not_mem hrest]

/-! ## suspend -/

/-- Neither the time nor the coroutine that runs matters, and of a node only its state. -/
theorem congr (hs : s.Linked) (time : Nat) (running : Option Handle) {node : NodeId → WaitNode}
    (h : ∀ m, (node m).state = (s.node m).state) : Linked { s with time, running, node } where
  waiting_iff m := by rw [hs.waiting_iff, ← h]
  ready_iff m := by rw [hs.ready_iff, ← h]
  waiting_nodup := hs.waiting_nodup
  ready_nodup := hs.ready_nodup
  timers_nodup := hs.timers_nodup
  timers_waiting m hm := (h m).trans (hs.timers_waiting m hm)
  waiters_nodup := hs.waiters_nodup
  waiters_waiting q m hm := (h m).trans (hs.waiters_waiting q m hm)
  waiters_once := hs.waiters_once

end Linked

theorem mem_insertBefore {d : NodeId → Nat} {l : List NodeId} : m ∈ insertBefore d n l ↔ m = n ∨ m ∈ l := by
  induction l with
  | nil => simp [insertBefore]
  | cons a l ih =>
    unfold insertBefore
    split
    · simp
    · simp only [List.mem_cons, ih]
      tauto

theorem nodup_insertBefore {d : NodeId → Nat} {l : List NodeId} (hl : l.Nodup) (hn : n ∉ l) :
    (insertBefore d n l).Nodup := by
  induction l with
  | nil => simp [insertBefore]
  | cons a l ih =>
    obtain ⟨ha, hl⟩ := List.nodup_cons.mp hl
    obtain ⟨hna, hn⟩ : n ≠ a ∧ n ∉ l := by simpa using hn
    unfold insertBefore
    split
    · exact List.nodup_cons.mpr ⟨by simp [hna, hn], List.nodup_cons.mpr ⟨ha, hl⟩⟩
    · refine List.nodup_cons.mpr ⟨?_, ih hl hn⟩
      rw [mem_insertBefore]
      rintro (rfl | hmem)
      · exact hna rfl
      · exact ha hmem

namespace Linked

/-- A node that is nowhere is put on the waiting list, and on the list of a primitive if `l` says so. -/
theorem enroll (waiters : ListId → List NodeId) (node : WaitNode) (hs : s.Linked) (hn : (s.node n).state = .idle)
    (hnode : node.state = .waiting) (hw : ∀ q, waiters q = s.waiters q ∨ waiters q = s.waiters q ++ [n])
    (honce : ∀ q q', n ∈ waiters q → n ∈ waiters q' → q = q') :
    Linked { s with node := update s.node n node, waiting := s.waiting ++ [n], waiters } := by
  have hidle : ∀ {m}, (s.node m).state ≠ .idle → m ≠ n := fun h he => h (he ▸ hn)
  have hready : n ∉ s.ready := fun hmem => hidle (by simp [(hs.ready_iff n).mp hmem]) rfl
  have hwait : n ∉ s.waiting := fun hmem => hidle (by simp [(hs.waiting_iff n).mp hmem]) rfl
  have hlist : ∀ q, n ∉ s.waiters q := fun q hmem => hidle (by simp [hs.waiters_waiting q n hmem]) rfl
  have hmem : ∀ q m, m ∈ waiters q → m = n ∨ m ∈ s.waiters q := by
    intro q m hm
    rcases hw q with h | h <;> rw [h] at hm
    · exact .inr hm
    · simpa [or_comm] using hm
  refine ⟨?_, ?_, ?_, hs.ready_nodup, hs.timers_nodup, ?_, ?_, ?_, ?_⟩
  · intro m
    by_cases hm : m = n
    · subst hm
      simp [hnode]
    · simp [hm, hs.waiting_iff]
  · intro m
    by_cases hm : m = n
    · subst hm
      simp [hnode, hready]
    · simp [hm, hs.ready_iff]
  · exact List.nodup_append.mpr ⟨hs.waiting_nodup, List.nodup_singleton n, fun a ha b hb => by
      rintro rfl
      exact hwait (List.mem_singleton.mp hb ▸ ha)⟩
  · intro m hm
    by_cases he : m = n
    · subst he
      simpa using hnode
    · simpa [he] using hs.timers_waiting m hm
  · intro q
    show (waiters q).Nodup
    rcases hw q with h | h <;> rw [h]
    · exact hs.waiters_nodup q
    · exact List.nodup_append.mpr ⟨hs.waiters_nodup q, List.nodup_singleton n, fun a ha b hb => by
        rintro rfl
        exact hlist q (List.mem_singleton.mp hb ▸ ha)⟩
  · intro q m hm
    by_cases he : m = n
    · subst he
      simpa using hnode
    · simpa [he] using hs.waiters_waiting q m ((hmem q m hm).resolve_left he)
  · intro q q' m hm hm'
    by_cases he : m = n
    · subst he
      exact honce q q' hm hm'
    · exact hs.waiters_once q q' m ((hmem q m hm).resolve_left he) ((hmem q' m hm').resolve_left he)

end Linked

/-- The node after `suspend`. -/
def suspended (n : NodeId) (h : Handle) (timeout : Nat) (timeoutResult : Int) (s : Scheduler) : WaitNode :=
  { s.node n with
    h, result := isixEok, timeoutResult := toInt8 timeoutResult, state := .waiting
    deadline := if timeout ≠ timeInfinite then toTick (s.jiffies + timeout) else (s.node n).deadline }

variable {timeout : Nat}

theorem suspend_eq :
    s.suspend n h timeout r =
      { s with
        node := update s.node n (s.suspended n h timeout r)
        waiting := s.waiting ++ [n]
        timers := if timeout ≠ timeInfinite then
            insertBefore (fun m => (update s.node n (s.suspended n h timeout r) m).deadline) n s.timers
          else s.timers
        running := none } := by
  unfold suspend suspended insertTimer jiffies
  split <;> simp [*]

theorem waitOn_eq :
    s.waitOn q n h timeout =
      { s.suspend n h timeout isixEtimeout with waiters := update s.waiters q (s.waiters q ++ [n]) } := by
  unfold waitOn
  rw [suspend_eq, suspend_eq]
  rfl

@[simp] theorem waitOn_waiters : (s.waitOn q n h timeout).waiters = update s.waiters q (s.waiters q ++ [n]) := by
  rw [waitOn_eq]

@[simp] theorem waitOn_node :
    (s.waitOn q n h timeout).node = update s.node n (s.suspended n h timeout isixEtimeout) := by
  rw [waitOn_eq, suspend_eq]

@[simp] theorem waitOn_running : (s.waitOn q n h timeout).running = none := by
  rw [waitOn_eq, suspend_eq]

namespace Linked

theorem not_mem_timers (hs : s.Linked) (hn : (s.node n).state = .idle) : n ∉ s.timers := fun hmem => by
  have := hs.timers_waiting n hmem
  rw [hn] at this
  cases this

theorem not_mem_waiters (hs : s.Linked) (hn : (s.node n).state ≠ .waiting) : n ∉ s.waiters q := fun hmem =>
  hn (hs.waiters_waiting q n hmem)

theorem timed {timers : List NodeId} (hs : s.Linked) (hn : (s.node n).state = .waiting) (ht : n ∉ s.timers)
    (htimers : timers = s.timers ∨ ∃ d, timers = insertBefore d n s.timers) : Linked { s with timers } := by
  refine { hs with timers_nodup := ?_, timers_waiting := ?_ }
  · rcases htimers with rfl | ⟨d, rfl⟩
    · exact hs.timers_nodup
    · exact nodup_insertBefore hs.timers_nodup ht
  · rcases htimers with rfl | ⟨d, rfl⟩
    · exact hs.timers_waiting
    · intro m hm
      cases mem_insertBefore.mp hm with
      | inl he => exact he ▸ hn
      | inr hm => exact hs.timers_waiting m hm

theorem suspend (hs : s.Linked) (hn : (s.node n).state = .idle) : (s.suspend n h timeout r).Linked := by
  rw [suspend_eq]
  have henroll := (hs.enroll s.waiters (s.suspended n h timeout r) hn rfl
    (fun q => .inl rfl) (hs.waiters_once · · n)).congr s.time none fun _ => rfl
  refine henroll.timed (by simp [suspended]) (hs.not_mem_timers hn) ?_
  split
  · exact .inr ⟨_, rfl⟩
  · exact .inl rfl

theorem waitOn (hs : s.Linked) (hn : (s.node n).state = .idle) : (s.waitOn q n h timeout).Linked := by
  have hlist : ∀ q, n ∉ s.waiters q := fun q => hs.not_mem_waiters (by simp [hn])
  rw [waitOn_eq, suspend_eq]
  have henroll := (hs.enroll (update s.waiters q (s.waiters q ++ [n])) (s.suspended n h timeout isixEtimeout)
    hn rfl ?_ ?_).congr s.time none fun _ => rfl
  · refine henroll.timed (by simp [suspended]) (hs.not_mem_timers hn) ?_
    split
    · exact .inr ⟨_, rfl⟩
    · exact .inl rfl
  · intro q'
    by_cases hq : q' = q
    · subst hq
      simp
    · simp [hq]
  · intro p p' hp hp'
    have hone : ∀ p, n ∈ update s.waiters q (s.waiters q ++ [n]) p → p = q := by
      intro p hp
      by_contra hne
      rw [update_of_ne hne] at hp
      exact hlist p hp
    rw [hone p hp, hone p' hp']

/-! ## the other calls -/

end Linked

/-- What `resume_ready` takes off the ready list. -/
theorem exists_of_resume (h : s.resume = some (n, s')) :
    ∃ rest, s.ready = n :: rest ∧ s' =
      { s with
        ready := rest
        node := update s.node n { s.node n with state := .idle }
        running := some (s.node n).h } := by
  unfold Scheduler.resume at h
  cases hr : s.ready with
  | nil =>
    rw [hr] at h
    cases h
  | cons a rest =>
    rw [hr] at h
    cases h
    exact ⟨rest, rfl, rfl⟩

namespace Linked

theorem resume (hs : s.Linked) (h : s.resume = some (n, s')) : s'.Linked := by
  obtain ⟨rest, hr, rfl⟩ := exists_of_resume h
  have hnodup := hs.ready_nodup
  rw [hr] at hnodup
  obtain ⟨hrest, hnodup⟩ := List.nodup_cons.mp hnodup
  have ha : (s.node n).state = .ready := (hs.ready_iff n).mp (by simp [hr])
  have hother : ∀ {m}, (s.node m).state = .waiting → m ≠ n := fun hm he => by
    rw [he, ha] at hm
    cases hm
  refine ⟨?_, ?_, hs.waiting_nodup, hnodup, hs.timers_nodup, ?_, hs.waiters_nodup, ?_, hs.waiters_once⟩
  · intro m
    by_cases hm : m = n
    · subst hm
      simp [hs.waiting_iff, ha]
    · simp [hm, hs.waiting_iff]
  · intro m
    by_cases hm : m = n
    · subst hm
      simpa using hrest
    · have := hs.ready_iff m
      simp only [hr, List.mem_cons, hm, false_or] at this
      simp [hm, this]
  · intro m hm
    have hw := hs.timers_waiting m hm
    simpa [hother hw] using hw
  · intro q m hm
    have hw := hs.waiters_waiting q m hm
    simpa [hother hw] using hw

/-- All the waiters of a primitive are woken, from the front. -/
theorem wakeAll {l : List NodeId} (hs : s.Linked) (hl : s.waiters q = l) (r : Int) :
    (l.foldl (fun t n => t.wake n r) s).Linked ∧ (l.foldl (fun t n => t.wake n r) s).waiters q = [] ∧
    ∀ n, (l.foldl (fun t n => t.wake n r) s).node n =
      if n ∈ l then { s.node n with state := .ready, result := toInt16 r } else s.node n := by
  induction l generalizing s with
  | nil => exact ⟨hs, hl, by simp⟩
  | cons a l ih =>
    have ha := hs.waiters_waiting q a (by simp [hl])
    have hal : a ∉ l := (List.nodup_cons.mp (hl ▸ hs.waiters_nodup q)).1
    obtain ⟨hlinked, hwaiters, hnode⟩ := ih (s := s.wake a r) hs.wake (by simp [wake_waiters ha, hl])
    refine ⟨hlinked, hwaiters, fun n => ?_⟩
    rw [List.foldl_cons, hnode]
    by_cases hna : n = a
    · subst hna
      rw [if_neg hal, if_pos (by simp), wake_node_self ha]
    · simp only [List.mem_cons, hna, false_or, wake_node_of_ne hna]

/-! ## what the scheduler does on its own -/

/-- A timer is taken off its list. -/
theorem unlink {timers : List NodeId} (hs : s.Linked) (ht : timers.Sublist s.timers) : Linked { s with timers } :=
  { hs with
    timers_nodup := hs.timers_nodup.sublist ht
    timers_waiting := fun n hn => hs.timers_waiting n (ht.mem hn) }

end Linked

/-- What wake-ups leave of a scheduler: a node is as before, or it was waiting and is ready now. -/
structure Moved (s s' : Scheduler) : Prop where
  linked : s'.Linked
  time : s'.time = s.time
  kids : s'.kids = s.kids
  node : ∀ n, s'.node n = s.node n ∨
    (s.node n).state = .waiting ∧ ∃ r, s'.node n = { s.node n with state := .ready, result := r }
  timers : s'.timers.Sublist s.timers
  timed : ∀ n ∈ s.timers, (s'.node n).state = .waiting → n ∈ s'.timers

namespace Moved

theorem refl (hs : s.Linked) : Moved s s := ⟨hs, rfl, rfl, fun _ => .inl rfl, .refl _, fun _ hn _ => hn⟩

theorem h_eq (hm : Moved s s') (n : NodeId) : (s'.node n).h = (s.node n).h := by
  rcases hm.node n with he | ⟨-, r, he⟩ <;> rw [he]

theorem onAbort_eq (hm : Moved s s') (n : NodeId) : (s'.node n).onAbort = (s.node n).onAbort := by
  rcases hm.node n with he | ⟨-, r, he⟩ <;> rw [he]

/-- A node that still waits is as before. -/
theorem node_of_waiting (hm : Moved s s') (hn : (s'.node n).state = .waiting) : s'.node n = s.node n := by
  rcases hm.node n with he | ⟨-, r, he⟩
  · exact he
  · rw [he] at hn
    cases hn

theorem trans {s'' : Scheduler} (h : Moved s s') (h' : Moved s' s'') : Moved s s'' := by
  refine ⟨h'.linked, h'.time.trans h.time, h'.kids.trans h.kids, fun n => ?_, h'.timers.trans h.timers,
    fun n hn hw => ?_⟩
  · rcases h'.node n with he | ⟨hw, r, he⟩
    · rw [he]
      exact h.node n
    · have hsame := h.node_of_waiting hw
      rw [hsame] at hw he
      exact .inr ⟨hw, r, he⟩
  · have hsame := h'.node_of_waiting hw
    exact h'.timed n (h.timed n hn (hsame ▸ hw)) hw

theorem wake (hs : s.Linked) : Moved s (s.wake n r) := by
  by_cases hn : (s.node n).state = .waiting
  · refine ⟨hs.wake, wake_time, by rw [wake_of_waiting hn], fun m => ?_, ?_, fun m hm hw => ?_⟩
    · by_cases hm : m = n
      · subst hm
        exact .inr ⟨hn, toInt16 r, wake_node_self hn⟩
      · exact .inl (wake_node_of_ne hm)
    · rw [wake_of_waiting hn]
      exact List.erase_sublist
    · have hne : m ≠ n := by
        rintro rfl
        rw [wake_node_self hn] at hw
        cases hw
      rw [wake_of_waiting hn]
      exact hs.timers_nodup.mem_erase_iff.mpr ⟨hne, hm⟩
  · rw [wake_of_not_waiting hn]
    exact .refl hs

end Moved

/-- The coroutines that are cancelled when the wait of a node is aborted. -/
inductive Cancels (s : Scheduler) (n : NodeId) : Handle → Prop
  | child {c : Handle} (hc : c ∈ s.kids n) : Cancels s n c
  | nested {m : NodeId} {c : Handle} (h : Cancels s n (s.node m).h) (ha : (s.node m).onAbort = true)
      (hc : c ∈ s.kids m) : Cancels s n c

/-- Which coroutines a wait cancels depends on the children and on the waits with an `on_abort`. -/
theorem Cancels.congr {c : Handle} (h : Cancels s' n c) (hkids : s'.kids = s.kids)
    (hh : ∀ m, (s'.node m).h = (s.node m).h) (ha : ∀ m, (s'.node m).onAbort = (s.node m).onAbort) : Cancels s n c := by
  induction h with
  | child hc => exact .child (hkids ▸ hc)
  | nested _ hab hc ih => exact .nested (hh _ ▸ ih) (ha _ ▸ hab) (hkids ▸ hc)

namespace Linked

section

variable {P : Scheduler → Prop} {C : Handle → Prop}
  (hC : ∀ m, C (s.node m).h → (s.node m).onAbort = true → ∀ c ∈ s.kids m, C c)
  (hP : ∀ t m, t.Linked → P t → (t.node m).state = .waiting → C (t.node m).h → P (t.wake m isixEcanceled))

include hC hP

/-- A cancellation keeps what the wake-ups with `ISIX_ECANCELED` keep, of the coroutines `C` that it can get to. -/
theorem cancelWait (depth : Nat) {t : Scheduler} {c : Handle} (hm : Moved s t) (ht : P t) (hc : C c) :
    Moved s (t.cancelWait depth c) ∧ P (t.cancelWait depth c) := by
  induction depth generalizing t c with
  | zero => exact ⟨hm, ht⟩
  | succ depth ih =>
    unfold Scheduler.cancelWait
    cases hf : t.waitingOf c with
    | none => exact ⟨hm, ht⟩
    | some n =>
      have hn := (hm.linked.waiting_iff n).mp (List.mem_of_find?_eq_some hf)
      have hh : (t.node n).h = c := of_decide_eq_true (List.find?_some hf :)
      dsimp only
      split
      next ha =>
        have hkids : ∀ c ∈ t.kids n, C c := by
          rw [hm.kids]
          refine hC n ?_ ?_
          · rwa [← hm.h_eq, hh]
          · rwa [← hm.onAbort_eq]
        exact List.foldlRecOn (motive := fun t => Moved s t ∧ P t) _ _ ⟨hm, ht⟩ fun t h c hc =>
          ih h.1 h.2 (hkids c hc)
      next => exact ⟨hm.trans (.wake hm.linked), hP t n hm.linked ht hn (hh ▸ hc)⟩

/-- `on_abort` does, too. -/
theorem abort (hs : s.Linked) (h : P s) (hn : ∀ c ∈ s.kids n, C c) : Moved s (s.abort n) ∧ P (s.abort n) :=
  List.foldlRecOn (motive := fun t => Moved s t ∧ P t) _ _ ⟨.refl hs, h⟩ fun _ ht c hc =>
    cancelWait hC hP _ ht.1 ht.2 (hn c hc)

end

theorem cancelWait_moved (hs : s.Linked) (depth : Nat) (c : Handle) : Moved s (s.cancelWait depth c) :=
  (cancelWait (P := fun _ => True) (C := fun _ => True) (fun _ _ _ _ _ => trivial) (fun _ _ _ _ _ _ => trivial) depth
    (.refl hs) trivial trivial).1

theorem abort_moved (hs : s.Linked) (n : NodeId) : Moved s (s.abort n) :=
  (abort (P := fun _ => True) (C := fun _ => True) (fun _ _ _ _ _ => trivial) (fun _ _ _ _ _ _ => trivial) hs trivial
    fun _ _ => trivial).1

/-- The loop of `process_due_timers` keeps what a wake-up with the result of a timeout or with `ISIX_ECANCELED` keeps,
and what taking a timer off its list keeps. -/
theorem fireDue {P : Scheduler → Prop}
    (hP : ∀ s n r, s.Linked → P s → (s.node n).state = .waiting →
      r = (s.node n).timeoutResult ∨ r = isixEcanceled → P (s.wake n r))
    (hoff : ∀ s timers, P s → timers.Sublist s.timers → P { s with timers })
    (now fuel : Nat) (hs : s.Linked) (h : P s) : (s.fireDue now fuel).Linked ∧ P (s.fireDue now fuel) := by
  induction fuel generalizing s with
  | zero => exact ⟨hs, h⟩
  | succ fuel ih =>
    unfold Scheduler.fireDue
    cases ht : s.timers with
    | nil => exact ⟨hs, h⟩
    | cons n rest =>
      dsimp only
      have hrest : rest.Sublist s.timers := ht ▸ List.sublist_cons_self n rest
      split
      · exact ⟨hs, h⟩
      · split
        · obtain ⟨hm, hp⟩ := abort (s := { s with timers := rest }) (n := n) (P := P) (C := fun _ => True)
            (fun _ _ _ _ _ => trivial) (fun t m hl hp hw _ => hP t m _ hl hp hw (.inr rfl)) (hs.unlink hrest)
            (hoff s rest h hrest) fun _ _ => trivial
          exact ih hm.linked hp
        · rw [hs.wake_front ht]
          exact ih hs.wake (hP s n _ hs h (hs.timers_waiting n (by simp [ht])) (.inl rfl))

/-- A step of the scheduler keeps what wake-ups of waiting nodes, with the result of a timeout or with
`ISIX_ECANCELED`, and changes of the time, of the running coroutine and of the timers keep. -/
theorem background {P : Scheduler → Prop} {b : Background}
    (hwake : ∀ s n r, s.Linked → P s → (s.node n).state = .waiting →
      r = (s.node n).timeoutResult ∨ r = isixEcanceled → P (s.wake n r))
    (hrest : ∀ s time running timers, P s → timers.Sublist s.timers → P { s with time, running, timers })
    (hs : s.Linked) (h : P s) (hb : s.background b = some s') : s'.Linked ∧ P s' := by
  cases b with
  | tick =>
    cases hb
    exact ⟨hs.congr _ _ fun _ => rfl, hrest s _ _ _ h (.refl _)⟩
  | timers =>
    obtain ⟨-, he⟩ := Option.ite_none_right_eq_some.mp hb
    cases he
    exact hs.fireDue hwake (fun s timers h ht => hrest s _ _ timers h ht) _ _ h
  | cancel c =>
    cases hb
    obtain ⟨hm, hp⟩ := cancelWait (C := fun _ => True) (P := P) (fun _ _ _ _ _ => trivial)
      (fun t m hl hp hw _ => hwake t m _ hl hp hw (.inr rfl)) s.waiting.length (.refl hs) h (c := c) trivial
    exact ⟨hm.linked, hp⟩
  | leave =>
    cases hb
    exact ⟨hs.congr _ _ fun _ => rfl, hrest s _ _ _ h (.refl _)⟩
  | enter c =>
    obtain ⟨-, he⟩ := Option.ite_none_right_eq_some.mp hb
    cases he
    exact ⟨hs.congr _ _ fun _ => rfl, hrest s _ _ _ h (.refl _)⟩

/-- On its own the scheduler puts nobody on the list of a primitive. -/
theorem background_waiters {b : Background} (hs : s.Linked) (hb : s.background b = some s') (q : ListId) :
    (s'.waiters q).Sublist (s.waiters q) := by
  have hsub := hs.background (P := fun t => (t.waiters q).Sublist (s.waiters q)) ?_ (fun _ _ _ _ h _ => h)
    (List.Sublist.refl _) hb
  · exact hsub.2
  · intro t n r _ h hn _
    rw [wake_waiters hn]
    exact List.erase_sublist.trans h

end Linked

theorem detach_node_of_busy (hm : ((s.detach n).node m).state ≠ .idle) : (s.detach n).node m = s.node m := by
  have hne : m ≠ n := by
    rintro rfl
    simp [Scheduler.detach] at hm
  exact update_of_ne hne ..

namespace Linked

/-- A node leaves every list it is on. -/
theorem detach (hs : s.Linked) : (s.detach n).Linked := by
  have hmem : ∀ {l : List NodeId} {m}, l.Nodup → (m ∈ l.erase n ↔ m ≠ n ∧ m ∈ l) := fun hl => hl.mem_erase_iff
  have hstate : ∀ m, m ≠ n → ((s.detach n).node m) = s.node m := fun m hm => update_of_ne hm ..
  refine ⟨fun m => ?_, fun m => ?_, hs.waiting_nodup.erase n, hs.ready_nodup.erase n, hs.timers_nodup.erase n,
    fun m hm => ?_, fun q => (hs.waiters_nodup q).erase n, fun q m hm => ?_, fun q q' m hm hm' => ?_⟩
  · by_cases hm : m = n
    · subst hm
      simp [Scheduler.detach, hmem hs.waiting_nodup]
    · rw [hstate m hm, ← hs.waiting_iff]
      exact (hmem hs.waiting_nodup).trans (and_iff_right hm)
  · by_cases hm : m = n
    · subst hm
      simp [Scheduler.detach, hmem hs.ready_nodup]
    · rw [hstate m hm, ← hs.ready_iff]
      exact (hmem hs.ready_nodup).trans (and_iff_right hm)
  · obtain ⟨hne, hm⟩ := (hmem hs.timers_nodup).mp hm
    rw [hstate m hne]
    exact hs.timers_waiting m hm
  · obtain ⟨hne, hm⟩ := (hmem (hs.waiters_nodup q)).mp hm
    rw [hstate m hne]
    exact hs.waiters_waiting q m hm
  · exact hs.waiters_once q q' m (List.mem_of_mem_erase hm) (List.mem_of_mem_erase hm')

end Linked

/-! ## one node per coroutine -/

/-- A coroutine has at most one node that is not idle, and none while it runs. -/
structure Single (s : Scheduler) : Prop where
  once : ∀ n m, (s.node n).state ≠ .idle → (s.node m).state ≠ .idle → (s.node n).h = (s.node m).h → n = m
  running : ∀ n, (s.node n).state ≠ .idle → s.running ≠ some (s.node n).h

theorem single_init (time : Nat) : Single { time } := ⟨by simp, by simp⟩

namespace Single

/-- A step in which no node of a coroutine becomes busy. -/
theorem mono {running : Option Handle} (hs : s.Single)
    (hbusy : ∀ m, (s'.node m).state ≠ .idle → (s.node m).state ≠ .idle ∧ (s'.node m).h = (s.node m).h)
    (hrun : s'.running = running) (hfree : ∀ m, (s'.node m).state ≠ .idle → running ≠ some (s'.node m).h) :
    s'.Single := by
  refine ⟨fun a b ha hb hab => ?_, fun a ha => hrun ▸ hfree a ha⟩
  obtain ⟨ha, hha⟩ := hbusy a ha
  obtain ⟨hb, hhb⟩ := hbusy b hb
  exact hs.once a b ha hb (hha.symm.trans (hab.trans hhb))

theorem wake (hs : s.Single) : (s.wake n r).Single := by
  by_cases hn : (s.node n).state = .waiting
  · have hh : ∀ m, ((s.wake n r).node m).h = (s.node m).h := by
      intro m
      by_cases hm : m = n
      · rw [hm, wake_node_self hn]
      · rw [wake_node_of_ne hm]
    have hbusy : ∀ m, ((s.wake n r).node m).state ≠ .idle → (s.node m).state ≠ .idle := by
      intro m hm
      by_cases he : m = n
      · rw [he, hn]
        nofun
      · rwa [wake_node_of_ne he] at hm
    refine hs.mono (fun m hm => ⟨hbusy m hm, hh m⟩) wake_running fun m hm => ?_
    rw [hh]
    exact hs.running m (hbusy m hm)
  · rwa [wake_of_not_waiting hn]

/-- A coroutine that runs suspends. -/
theorem waitOn (hs : s.Single) (hr : s.running = some h) : (s.waitOn q n h timeout).Single := by
  have hother : ∀ m, m ≠ n → (s.waitOn q n h timeout).node m = s.node m := fun m hm => by simp [hm]
  have hself : ((s.waitOn q n h timeout).node n).h = h := by simp [suspended]
  have hne : ∀ m, m ≠ n → ((s.waitOn q n h timeout).node m).state ≠ .idle →
      ((s.waitOn q n h timeout).node m).h ≠ h := by
    intro m hm hb he
    rw [hother m hm] at hb he
    exact hs.running m hb (by rw [hr, he])
  refine ⟨fun a b ha hb hab => ?_, fun a _ => by simp⟩
  by_cases han : a = n <;> by_cases hbn : b = n
  · rw [han, hbn]
  · subst han
    exact absurd (hab.symm.trans hself) (hne b hbn hb)
  · subst hbn
    exact absurd (hab.trans hself) (hne a han ha)
  · rw [hother a han] at ha hab
    rw [hother b hbn] at hb hab
    exact hs.once a b ha hb hab

/-- A coroutine that is resumed runs, and its node is idle. -/
theorem resume (hl : s.Linked) (hs : s.Single) (h : s.resume = some (n, s')) : s'.Single := by
  obtain ⟨rest, hready, rfl⟩ := exists_of_resume h
  have hn := (hl.ready_iff n).mp (by simp [hready])
  have hbusy : ∀ m, (update s.node n { s.node n with state := .idle } m).state ≠ .idle →
      m ≠ n ∧ (s.node m).state ≠ .idle := by
    intro m hm
    have hne : m ≠ n := by
      rintro rfl
      simp at hm
    exact ⟨hne, by simpa [hne] using hm⟩
  refine hs.mono (fun m hm => ?_) rfl fun m hm => ?_
  · obtain ⟨hne, hm⟩ := hbusy m hm
    exact ⟨hm, by simp [hne]⟩
  · obtain ⟨hne, hm⟩ := hbusy m hm
    simp only [update_of_ne hne]
    exact fun he => hne (hs.once m n hm (by simp [hn]) (Option.some.inj he).symm)

theorem detach (hs : s.Single) : (s.detach n).Single := by
  refine hs.mono (fun m hm => ?_) rfl fun m hm => ?_
  · have he := detach_node_of_busy hm
    exact ⟨he ▸ hm, by rw [he]⟩
  · have he := detach_node_of_busy hm
    rw [he] at hm ⊢
    exact hs.running m hm

theorem background {b : Background} (hl : s.Linked) (hs : s.Single) (hb : s.background b = some s') : s'.Single := by
  cases b with
  | tick =>
    cases hb
    exact ⟨hs.once, hs.running⟩
  | timers =>
    obtain ⟨-, he⟩ := Option.ite_none_right_eq_some.mp hb
    cases he
    exact (hl.fireDue (fun _ _ _ _ hs _ _ => hs.wake) (fun _ _ hs _ => ⟨hs.once, hs.running⟩) _ _ hs).2
  | cancel c =>
    cases hb
    exact (Linked.cancelWait (C := fun _ => True) (fun _ _ _ _ _ => trivial) (fun _ _ _ hs _ _ => hs.wake) _ (.refl hl)
      hs trivial).2
  | leave =>
    cases hb
    exact ⟨hs.once, fun _ _ => nofun⟩
  | enter c =>
    obtain ⟨⟨-, hfree⟩, he⟩ := Option.ite_none_right_eq_some.mp hb
    cases he
    refine ⟨hs.once, fun m hm he => ?_⟩
    cases hst : (s.node m).state with
    | idle => exact hm hst
    | waiting => exact hfree.1 m ((hl.waiting_iff m).mpr hst) (Option.some.inj he).symm
    | ready => exact hfree.2 m ((hl.ready_iff m).mpr hst) (Option.some.inj he).symm

end Single

end Scheduler

end Isix.Co
