import Isix.Properties.CoNodes

/-!
# Isix.Properties.CoQueue

The takes of a primitive that hands something out in the order in which it was
asked for: the tokens of a semaphore, the ownership of a mutex.  The takes are
numbered in the order in which they begin.  A take waits on the list of the
primitive until it gets its token or its wait ends without one (`Takes`); what
got a token began before everything that still waits.
-/

namespace Isix.Co.Queue

open Function (update update_self update_of_ne)

variable {n : NodeId}

/-- A result and the tokens consumed for it. -/
def Fair (p : Int × Nat) : Prop := p.1 = isixEok ∧ p.2 = 1 ∨ p.1 ≠ isixEok ∧ p.2 = 0

/-- The takes that are under way: how many tokens were consumed for the take of a node, its number, the
number of takes that began, and those that got a token. -/
structure Takes (tokens ticket : NodeId → Nat) (takes : Nat) (served : List Nat) (sched : Scheduler) : Prop where
  waiting : ∀ n, (sched.node n).state = .waiting → (sched.node n).timeoutResult = isixEtimeout ∧ tokens n = 0
  ready : ∀ n, (sched.node n).state = .ready → Fair ((sched.node n).result, tokens n)
  sorted : (sched.waiters 0).Pairwise (ticket · < ticket ·)
  begun : ∀ n ∈ sched.waiters 0, ticket n < takes
  first : ∀ b ∈ served, ∀ n ∈ sched.waiters 0, b < ticket n
  served_begun : ∀ b ∈ served, b < takes

variable {tokens ticket : NodeId → Nat} {takes : Nat} {served : List Nat} {sched sched' : Scheduler}

theorem takes_init {time : Nat} : Takes tokens ticket 0 [] { time } :=
  ⟨by simp, by simp, List.Pairwise.nil, by simp, by simp, by simp⟩

/-- A wait ends without a token. -/
theorem Takes.fail {r : Int} (h : Takes tokens ticket takes served sched)
    (hn : (sched.node n).state = .waiting) (hr : toInt16 r ≠ isixEok) :
    Takes tokens ticket takes served (sched.wake n r) := by
  refine ⟨?_, ?_, ?_, ?_, ?_, h.served_begun⟩
  · intro m hm
    have hne : m ≠ n := by
      rintro rfl
      simp [Scheduler.wake_node_self hn] at hm
    rw [Scheduler.wake_node_of_ne hne] at hm ⊢
    exact h.waiting m hm
  · intro m hm
    by_cases hne : m = n
    · subst hne
      rw [Scheduler.wake_node_self hn]
      exact .inr ⟨hr, (h.waiting m hn).2⟩
    · rw [Scheduler.wake_node_of_ne hne] at hm ⊢
      exact h.ready m hm
  · rw [Scheduler.wake_waiters hn]
    exact h.sorted.sublist List.erase_sublist
  · intro m hm
    rw [Scheduler.wake_waiters hn] at hm
    exact h.begun m (List.mem_of_mem_erase hm)
  · intro b hb m hm
    rw [Scheduler.wake_waiters hn] at hm
    exact h.first b hb m (List.mem_of_mem_erase hm)

theorem Takes.background {b : Background} (hs : sched.Linked) (h : Takes tokens ticket takes served sched)
    (hb : sched.background b = some sched') : sched'.Linked ∧ Takes tokens ticket takes served sched' := by
  refine hs.background (fun t n r _ h hn hr => h.fail hn ?_) (fun t _ _ _ h _ => ?_) h hb
  · cases hr with
    | inl hr =>
      rw [hr, (h.waiting n hn).1]
      decide
    | inr hr =>
      rw [hr]
      decide
  · exact { h with }

/-- The first waiter gets a token. -/
theorem Takes.serve {rest : List NodeId} (hs : sched.Linked) (h : Takes tokens ticket takes served sched)
    (hw : sched.waiters 0 = n :: rest) :
    Takes (update tokens n (tokens n + 1)) ticket takes (served ++ [ticket n]) (sched.wake n isixEok) := by
  have hn := hs.waiters_waiting 0 n (by simp [hw])
  have hrest : n ∉ rest := (List.nodup_cons.mp (hw ▸ hs.waiters_nodup 0)).1
  have hwaiters : (sched.wake n isixEok).waiters 0 = rest := by simp [Scheduler.wake_waiters hn, hw]
  have hsorted := h.sorted
  have hbegun := h.begun
  rw [hw] at hsorted hbegun
  refine ⟨?_, ?_, ?_, ?_, ?_, ?_⟩
  · intro m hm
    have hne : m ≠ n := by
      rintro rfl
      simp [Scheduler.wake_node_self hn] at hm
    rw [Scheduler.wake_node_of_ne hne] at hm ⊢
    rw [update_of_ne hne]
    exact h.waiting m hm
  · intro m hm
    by_cases hne : m = n
    · subst hne
      rw [Scheduler.wake_node_self hn, update_self, (h.waiting m hn).2]
      exact .inl ⟨toInt16_eok, rfl⟩
    · rw [Scheduler.wake_node_of_ne hne] at hm ⊢
      rw [update_of_ne hne]
      exact h.ready m hm
  · rw [hwaiters]
    exact (List.pairwise_cons.mp hsorted).2
  · intro m hm
    rw [hwaiters] at hm
    exact hbegun m (List.mem_cons_of_mem n hm)
  · intro b hb m hm
    rw [hwaiters] at hm
    rcases List.mem_append.mp hb with hb | hb
    · exact h.first b hb m (by simp [hw, hm])
    · rw [List.mem_singleton.mp hb]
      exact (List.pairwise_cons.mp hsorted).1 m hm
  · intro b hb
    rcases List.mem_append.mp hb with hb | hb
    · exact h.served_begun b hb
    · rw [List.mem_singleton.mp hb]
      exact hbegun n (by simp)

/-- A take begins, with a node that is not in use. -/
theorem Takes.begin (hs : sched.Linked) (h : Takes tokens ticket takes served sched)
    (hn : (sched.node n).state = .idle) :
    Takes (update tokens n 0) (update ticket n takes) (takes + 1) served sched := by
  have hw : ∀ m ∈ sched.waiters 0, m ≠ n := fun m hm he =>
    hs.not_mem_waiters (by simp [hn]) (he ▸ hm)
  refine ⟨?_, ?_, ?_, ?_, ?_, ?_⟩
  · intro m hm
    have hne : m ≠ n := by
      rintro rfl
      rw [hn] at hm
      cases hm
    rw [update_of_ne hne]
    exact h.waiting m hm
  · intro m hm
    have hne : m ≠ n := by
      rintro rfl
      rw [hn] at hm
      cases hm
    rw [update_of_ne hne]
    exact h.ready m hm
  · refine h.sorted.imp_of_mem fun ha hb hab => ?_
    rwa [update_of_ne (hw _ ha), update_of_ne (hw _ hb)]
  · intro m hm
    rw [update_of_ne (hw m hm)]
    exact Nat.lt_succ_of_lt (h.begun m hm)
  · intro b hb m hm
    rw [update_of_ne (hw m hm)]
    exact h.first b hb m hm
  · intro b hb
    exact Nat.lt_succ_of_lt (h.served_begun b hb)

/-- The take that began last joins the waiters. -/
theorem Takes.wait {h : Handle} {timeout : Nat} (ht : Takes tokens ticket takes served sched)
    (htok : tokens n = 0) (htick : ticket n < takes)
    (hlast : ∀ m ∈ sched.waiters 0, ticket m < ticket n) (hserved : ∀ b ∈ served, b < ticket n) :
    Takes tokens ticket takes served (sched.waitOn 0 n h timeout) := by
  refine ⟨?_, ?_, ?_, ?_, ?_, ht.served_begun⟩
  · intro m hm
    by_cases hne : m = n
    · subst hne
      refine ⟨?_, htok⟩
      simp only [Scheduler.waitOn_node, update_self, Scheduler.suspended]
      decide
    · simp only [Scheduler.waitOn_node, update_of_ne hne] at hm ⊢
      exact ht.waiting m hm
  · intro m hm
    have hne : m ≠ n := by
      rintro rfl
      simp [Scheduler.suspended] at hm
    simp only [Scheduler.waitOn_node, update_of_ne hne] at hm ⊢
    exact ht.ready m hm
  · simp only [Scheduler.waitOn_waiters, update_self]
    refine List.pairwise_append.mpr ⟨ht.sorted, List.pairwise_singleton _ _, fun a ha b hb => ?_⟩
    rw [List.mem_singleton.mp hb]
    exact hlast a ha
  · intro m hm
    simp only [Scheduler.waitOn_waiters, update_self, List.mem_append, List.mem_singleton] at hm
    cases hm with
    | inl hm => exact ht.begun m hm
    | inr hm => exact hm ▸ htick
  · intro b hb m hm
    simp only [Scheduler.waitOn_waiters, update_self, List.mem_append, List.mem_singleton] at hm
    cases hm with
    | inl hm => exact ht.first b hb m hm
    | inr hm => exact hm ▸ hserved b hb

section

variable (h : Takes tokens ticket takes served sched)

include h

theorem Takes.resume (hr : sched.resume = some (n, sched')) :
    Takes tokens ticket takes served sched' := by
  obtain ⟨rest, -, rfl⟩ := Scheduler.exists_of_resume hr
  refine { h with waiting := ?_, ready := ?_ }
  · intro m hm
    by_cases hne : m = n
    · subst hne
      simp at hm
    · simp only [update_of_ne hne] at hm ⊢
      exact h.waiting m hm
  · intro m hm
    by_cases hne : m = n
    · subst hne
      simp at hm
    · simp only [update_of_ne hne] at hm ⊢
      exact h.ready m hm

/-- The coroutine of a take is destroyed. -/
theorem Takes.detach :
    Takes tokens ticket takes served (sched.detach n) := by
  have hsub : ((sched.detach n).waiters 0).Sublist (sched.waiters 0) := List.erase_sublist
  refine ⟨?_, ?_, h.sorted.sublist hsub, fun m hm => h.begun m (hsub.mem hm), fun b hb m hm => h.first b hb m (hsub.mem hm),
    h.served_begun⟩
  · intro m hm
    have he := Scheduler.detach_node_of_busy (show _ ≠ NodeState.idle by rw [hm]; nofun)
    rw [he] at hm ⊢
    exact h.waiting m hm
  · intro m hm
    have he := Scheduler.detach_node_of_busy (show _ ≠ NodeState.idle by rw [hm]; nofun)
    rw [he] at hm ⊢
    exact h.ready m hm

/-- A take gets a token at once, with nobody waiting. -/
theorem Takes.fast (hn : (sched.node n).state = .idle)
    (htick : ticket n < takes) (hw : sched.waiters 0 = []) :
    Takes (update tokens n (tokens n + 1)) ticket takes (served ++ [ticket n]) sched := by
  have hne : ∀ m, (sched.node m).state ≠ .idle → m ≠ n := fun m hm he => hm (he ▸ hn)
  refine ⟨?_, ?_, h.sorted, h.begun, ?_, ?_⟩
  · intro m hm
    rw [update_of_ne (hne m (by simp [hm]))]
    exact h.waiting m hm
  · intro m hm
    rw [update_of_ne (hne m (by simp [hm]))]
    exact h.ready m hm
  · intro b _ m hm
    rw [hw] at hm
    cases hm
  · intro b hb
    rcases List.mem_append.mp hb with hb | hb
    · exact h.served_begun b hb
    · rw [List.mem_singleton.mp hb]
      exact htick

end

end Isix.Co.Queue
