import Isix.Co.Mutex
import Isix.Properties.CoQueue

/-!
# Isix.Properties.CoMutex

A coroutine mutex excludes.  In every state that is reached at most one
coroutine is between a successful lock and its unlock, also while the mutex was
passed to it and it is only queued for resumption: a node that is ready with
`ISIX_EOK` belongs to the owner (`Handed`), and a coroutine with a ready node
does not run, so nobody but that coroutine can give the mutex away.
-/

namespace Isix.Co.Mutex

open Queue (Fair Takes)
open Runs (Run Reached reached of_guard of_guard_map)

variable {s s' : State} {n : NodeId} {h : Handle}

/-! ## the invariant -/

/-- A wait that ended: the mutex was passed to the coroutine, or it has an error to report. -/
def Handed (held : List Handle) (guard : Option Handle) (sched : Scheduler) : Prop :=
  ∀ n, (sched.node n).state = .ready →
    (sched.node n).result = isixEok ∧ held = [(sched.node n).h] ∧ guard = none ∨
      (sched.node n).result = isixEtimeout ∨ (sched.node n).result = isixEcanceled

/-- A lock that returned. -/
def Told (p : Int × Nat) : Prop := Fair p ∧ p.1 ∈ [isixEok, isixEtimeout, isixEcanceled, isixEinvarg]

structure State.Free (s : State) : Prop where
  unlocked : s.locked = false
  owner : s.owner = none
  held : s.held = []
  guard : s.guard = none
  waiters : s.waiters = []

structure State.OwnedBy (s : State) (h : Handle) : Prop where
  locked : s.locked = true
  owner : s.owner = some h
  held : s.held = [h]
  guard : s.guard = none ∨ s.guard = some h

structure Excludes (s : State) : Prop where
  linked : s.sched.Linked
  single : s.sched.Single
  takes : Takes s.got s.ticket s.locks s.served s.sched
  owned : s.Free ∨ ∃ h, s.OwnedBy h
  handed : Handed s.held s.guard s.sched
  returned : ∀ p ∈ s.returned, Told p
  order : s.served.Pairwise (· < ·)

theorem excludes_init (time : Nat) : Excludes (.init time) where
  linked := Scheduler.linked_init time
  single := Scheduler.single_init time
  takes := Queue.takes_init
  owned := Or.inl ⟨rfl, rfl, rfl, rfl, rfl⟩
  handed := by simp [Handed, State.init]
  returned := by simp [State.init]
  order := List.Pairwise.nil

namespace Excludes

section

variable (hs : Excludes s)

include hs

theorem free_of_unlocked (h : s.locked = false) : s.Free := by
  rcases hs.owned with hfree | ⟨o, ho⟩
  · exact hfree
  · simp [ho.locked] at h

theorem ownedBy_of_owner (h : s.owner = some o) : s.OwnedBy o := by
  rcases hs.owned with hfree | ⟨o', ho⟩
  · simp [hfree.owner] at h
  · rw [ho.owner] at h
    cases h
    exact ho

theorem ownedBy_of_guard (h : s.guard = some o) : s.OwnedBy o := by
  rcases hs.owned with hfree | ⟨o', ho⟩
  · simp [hfree.guard] at h
  · rcases ho.guard with hg | hg
    · simp [hg] at h
    · rw [hg] at h
      cases h
      exact ho

/-- With no owner nobody was passed the mutex. -/
theorem handed_of_free (hf : s.Free) (held : List Handle) (guard : Option Handle) :
    Handed held guard s.sched := by
  intro n hn
  rcases hs.handed n hn with ⟨-, hheld, -⟩ | herr
  · simp [hf.held] at hheld
  · exact .inr herr

/-! ## the calls -/

theorem answer {r : Int} (htold : Told (r, s.got n))
    (hg : s.isScoped n = true → r = isixEok → s.OwnedBy h ∧ Handed s.held (some h) s.sched) :
    Excludes (s.answer n h r) := by
  have hret : ∀ p ∈ (s.answer n h r).returned, Told p := List.forall_mem_cons.mpr ⟨htold, hs.returned⟩
  by_cases hsc : s.isScoped n = true ∧ r = isixEok
  · obtain ⟨hown, hhanded⟩ := hg hsc.1 hsc.2
    have hguard : (s.answer n h r).guard = some h := if_pos hsc
    exact ⟨hs.linked, hs.single, hs.takes, .inr ⟨h, hown.locked, hown.owner, hown.held, .inr hguard⟩,
      hguard.symm ▸ hhanded, hret, hs.order⟩
  · have hguard : (s.answer n h r).guard = s.guard := if_neg hsc
    refine ⟨hs.linked, hs.single, hs.takes, ?_, hguard.symm ▸ hs.handed, hret, hs.order⟩
    rcases hs.owned with hf | ⟨o, ho⟩
    · exact .inl { hf with guard := hguard.trans hf.guard }
    · exact .inr ⟨o, ho.locked, ho.owner, ho.held, hguard.symm ▸ ho.guard⟩

end

theorem begin (isScoped : Bool) (hs : Excludes s) (hn : (s.sched.node n).state = .idle) :
    Excludes (s.begin n isScoped) := by
  refine { hs with takes := hs.takes.begin hs.linked hn, owned := ?_ }
  rcases hs.owned with hf | ⟨o, ho⟩
  · exact .inl { hf with }
  · exact .inr ⟨o, ho.locked, ho.owner, ho.held, ho.guard⟩

theorem ownedBy_take (hf : s.Free) (hr : s.sched.running = some h) : (s.take.enter h).OwnedBy h :=
  ⟨rfl, hr, by simp [State.take, State.enter, hf.held], .inl hf.guard⟩

section

variable (hs : Excludes s)

include hs

theorem take (hl : s.locked = false) (hr : s.sched.running = some h) : Excludes (s.take.enter h) := by
  have hf := hs.free_of_unlocked hl
  exact { hs with owned := Or.inr ⟨h, ownedBy_take hf hr⟩, handed := hs.handed_of_free hf _ _ }

section

variable (hr : s.sched.running = some h)

include hr

theorem tryLock : Excludes (if (tryLock s).1 then (tryLock s).2.enter h else (tryLock s).2) := by
  unfold Mutex.tryLock
  by_cases hl : s.locked = true
  · simpa [hl] using hs
  · simpa [hl] using hs.take (by simpa using hl) hr

section

variable (hn : (s.sched.node n).state = .idle)

include hn

/-- A lock that finds the mutex free and nobody waiting. -/
theorem fast
    (hl : s.locked = false) (hgot : s.got n = 0) (htick : s.ticket n < s.locks)
    (hlast : ∀ b ∈ s.served, b < s.ticket n) :
    Excludes (State.answer n h isixEok { s.take.enter h with
      got := Function.update s.got n (s.got n + 1), served := s.served ++ [s.ticket n] }) := by
  have hf := hs.free_of_unlocked hl
  have htake := hs.take hl hr
  have hown := ownedBy_take hf hr
  have hgot' : Excludes { s.take.enter h with
      got := Function.update s.got n (s.got n + 1), served := s.served ++ [s.ticket n] } := by
    refine { htake with takes := htake.takes.fast hn htick hf.waiters, owned := ?_, order := ?_ }
    · exact .inr ⟨h, hown.locked, hown.owner, hown.held, hown.guard⟩
    · refine List.pairwise_append.mpr ⟨hs.order, List.pairwise_singleton _ _, fun b hb c hc => ?_⟩
      rw [List.mem_singleton.mp hc]
      exact hlast b hb
  refine hgot'.answer ⟨.inl ⟨rfl, ?_⟩, by simp⟩ fun _ _ => ?_
  · simp [hgot]
  · exact ⟨{ hown with }, hs.handed_of_free hf _ _⟩

/-- A lock has to wait. -/
theorem wait {timeout : Nat}
    (hl : s.locked = true) (hgot : s.got n = 0) (htick : s.ticket n < s.locks)
    (hlast : ∀ m ∈ s.waiters, s.ticket m < s.ticket n) (hserved : ∀ b ∈ s.served, b < s.ticket n) :
    Excludes { s with sched := s.sched.waitOn 0 n h timeout } := by
  refine ⟨hs.linked.waitOn hn, hs.single.waitOn hr, hs.takes.wait hgot htick hlast hserved, .inr ?_, ?_, hs.returned,
    hs.order⟩
  · rcases hs.owned with hf | ⟨o, ho⟩
    · simp [hf.unlocked] at hl
    · exact ⟨o, ho.locked, ho.owner, ho.held, ho.guard⟩
  · intro m hm
    have hne : m ≠ n := by
      rintro rfl
      simp [Scheduler.suspended] at hm
    simp only [Scheduler.waitOn_node, Function.update_of_ne hne] at hm ⊢
    exact hs.handed m hm

theorem lock {timeout : Nat} {isScoped cancelled foreign : Bool} : Excludes (lock n h timeout isScoped cancelled foreign s) := by
  have hbegin := hs.begin isScoped hn
  have htick : (s.begin n isScoped).ticket n = s.locks := Function.update_self ..
  have hgot : (s.begin n isScoped).got n = 0 := Function.update_self ..
  have hlt : (s.begin n isScoped).ticket n < (s.begin n isScoped).locks := htick ▸ Nat.lt_succ_self _
  have hserved : ∀ b ∈ s.served, b < (s.begin n isScoped).ticket n := fun b hb =>
    htick ▸ hs.takes.served_begun b hb
  have hfail : ∀ {r : Int}, r ≠ isixEok → r ∈ [isixEok, isixEtimeout, isixEcanceled, isixEinvarg] →
      Excludes ((s.begin n isScoped).answer n h r) := fun hne hr =>
    hbegin.answer ⟨.inr ⟨hne, hgot⟩, hr⟩ fun _ he => absurd he hne
  unfold Mutex.lock
  simp only
  split
  next hfast => exact hbegin.fast hr hn hfast.2 hgot hlt hserved
  next hslow =>
    split
    · exact hfail (by decide) (by decide)
    split
    · exact hfail (by decide) (by decide)
    split
    · exact hfail (by decide) (by decide)
    refine hbegin.wait hr hn ?_ hgot hlt ?_ hserved
    · by_contra hfree
      have hf := hbegin.free_of_unlocked (by simpa using hfree)
      exact hslow ⟨by simp [hf.waiters], hf.unlocked⟩
    · intro m hm
      have hne : m ≠ n := fun he => hs.linked.not_mem_waiters (by simp [hn]) (he ▸ hm)
      have := hs.takes.begun m hm
      simpa [State.begin, hne, hgot] using this

end

end

/-- The owner `h` gives the mutex away; nobody was passed it. -/
theorem release (ho : s.OwnedBy h) (hnone : ∀ held guard, Handed held guard s.sched)
    (guard : Option Handle) (hg : guard = none) : Excludes (s.leave h { s.release with guard }) := by
  subst hg
  unfold State.leave State.release
  cases hw : s.waiters with
  | nil =>
    exact { hs with owned := Or.inl ⟨rfl, rfl, by simp [ho.held], rfl, hw⟩, handed := hnone _ _ }
  | cons n rest =>
    have hn : (s.sched.node n).state = .waiting :=
      hs.linked.waiters_waiting 0 n (by rw [show s.sched.waiters 0 = n :: rest from hw]; simp)
    refine ⟨hs.linked.wake, hs.single.wake, hs.takes.serve hs.linked hw,
      Or.inr ⟨(s.sched.node n).h, ho.locked, rfl, by simp [ho.held], .inl rfl⟩, ?_, hs.returned, ?_⟩
    · intro m hm
      by_cases hne : m = n
      · subst hne
        rw [Scheduler.wake_node_self hn]
        exact .inl ⟨toInt16_eok, by simp [ho.held], rfl⟩
      · rw [Scheduler.wake_node_of_ne hne] at hm ⊢
        exact hnone _ _ m hm
    · refine List.pairwise_append.mpr ⟨hs.order, List.pairwise_singleton _ _, fun b hb c hc => ?_⟩
      rw [List.mem_singleton.mp hc]
      exact hs.takes.first b hb n (by rw [show s.sched.waiters 0 = n :: rest from hw]; simp)

/-- A coroutine that runs was not just passed the mutex. -/
theorem handed_of_running (ho : s.OwnedBy h) (hr : s.sched.running = some h)
    (held : List Handle) (guard : Option Handle) : Handed held guard s.sched := by
  intro n hn
  rcases hs.handed n hn with ⟨-, hheld, -⟩ | herr
  · rw [ho.held] at hheld
    have hh : h = (s.sched.node n).h := by simpa using hheld
    exact absurd (hr.trans (congrArg some hh)) (hs.single.running n (by rw [hn]; nofun))
  · exact .inr herr

/-- A scoped lock exists only after the coroutine was resumed. -/
theorem handed_of_guard (hg : s.guard = some h) (held : List Handle) (guard : Option Handle) :
    Handed held guard s.sched := by
  intro n hn
  rcases hs.handed n hn with ⟨-, -, hnone⟩ | herr
  · simp [hg] at hnone
  · exact .inr herr

theorem unlock (hr : s.sched.running = some h) (hg : s.owner = some h → s.guard = none) :
    Excludes (if (unlock s).1 = isixEok then s.leave h (unlock s).2 else (unlock s).2) := by
  unfold Mutex.unlock
  split
  · rwa [if_neg (show isixEnotlocked ≠ isixEok by decide)]
  split
  · rwa [if_neg (show isixEperm ≠ isixEok by decide)]
  next howner =>
    have heq : s.owner = some h := (not_not.mp howner).trans hr
    have ho := hs.ownedBy_of_owner heq
    have hrel := hs.release ho (hs.handed_of_running ho hr) s.guard (hg heq)
    have hguard : s.release.guard = s.guard := by
      unfold State.release
      split <;> rfl
    rw [if_pos rfl]
    rwa [← hguard] at hrel

theorem resume {sched : Scheduler} (hr : s.sched.resume = some (n, sched)) :
    Excludes (State.answer n (s.sched.node n).h (s.sched.node n).result { s with sched }) := by
  obtain ⟨rest, hready, ht⟩ := Scheduler.exists_of_resume hr
  have hn := (hs.linked.ready_iff n).mp (by simp [hready])
  have hother : ∀ m, (sched.node m).state = .ready → m ≠ n ∧ sched.node m = s.sched.node m := by
    intro m hm
    have hne : m ≠ n := by
      rintro rfl
      simp [ht] at hm
    exact ⟨hne, by simp [ht, hne]⟩
  have hs' : Excludes { s with sched } := by
    refine ⟨hs.linked.resume hr, hs.single.resume hs.linked hr, hs.takes.resume hr, ?_, ?_, hs.returned, hs.order⟩
    · rcases hs.owned with hf | ⟨o, ho⟩
      · refine .inl { hf with waiters := ?_ }
        rw [ht]
        exact hf.waiters
      · exact .inr ⟨o, ho.locked, ho.owner, ho.held, ho.guard⟩
    · intro m hm
      obtain ⟨-, he⟩ := hother m hm
      rw [he] at hm ⊢
      exact hs.handed m hm
  refine hs'.answer ⟨hs.takes.ready n hn, ?_⟩ fun _ hok => ?_
  · rcases hs.handed n hn with ⟨hr, -⟩ | hr | hr <;> simp [hr]
  · rcases hs.handed n hn with ⟨-, hheld, hguard⟩ | hr | hr
    · have hown : State.OwnedBy { s with sched } (s.sched.node n).h := by
        rcases hs'.owned with hf | ⟨o, ho⟩
        · have hnil : s.held = [] := hf.held
          simp [hheld] at hnil
        · have hheld' : s.held = [o] := ho.held
          rw [hheld] at hheld'
          cases hheld'
          exact ho
      refine ⟨hown, fun m hm => ?_⟩
      -- no second node was passed the mutex: it would be one of the same coroutine
      obtain ⟨hne, he⟩ := hother m hm
      rw [he] at hm ⊢
      rcases hs.handed m hm with ⟨-, hheld', -⟩ | herr
      · refine absurd (hs.single.once m n (by rw [hm]; nofun) (by rw [hn]; nofun) ?_) hne
        simpa [hheld] using hheld'.symm
      · exact .inr herr
    · simp [hr, isixEok, isixEtimeout] at hok
    · simp [hr, isixEok, isixEcanceled] at hok

theorem detach : Excludes { s with sched := s.sched.detach n } := by
  refine ⟨hs.linked.detach, hs.single.detach, hs.takes.detach, ?_, fun m hm => ?_, hs.returned, hs.order⟩
  · rcases hs.owned with hf | ⟨o, ho⟩
    · refine .inl { hf with waiters := ?_ }
      show (s.sched.waiters 0).erase n = []
      rw [show s.sched.waiters 0 = [] from hf.waiters]
      rfl
    · exact .inr ⟨o, ho.locked, ho.owner, ho.held, ho.guard⟩
  · have he := Scheduler.detach_node_of_busy (show _ ≠ NodeState.idle by rw [hm]; nofun)
    rw [he] at hm ⊢
    exact hs.handed m hm

theorem background {b : Background} {sched : Scheduler} (hb : s.sched.background b = some sched) :
    Excludes { s with sched } := by
  have hkeep := hs.linked.background
    (P := fun t => Takes s.got s.ticket s.locks s.served t ∧ Handed s.held s.guard t) ?_ ?_ ⟨hs.takes, hs.handed⟩ hb
  · refine ⟨hkeep.1, hs.single.background hs.linked hb, hkeep.2.1, ?_, hkeep.2.2, hs.returned, hs.order⟩
    rcases hs.owned with hf | ⟨o, ho⟩
    · have hsub := hs.linked.background_waiters hb 0
      rw [show s.sched.waiters 0 = [] from hf.waiters] at hsub
      exact .inl { hf with waiters := List.sublist_nil.mp hsub }
    · exact .inr ⟨o, ho.locked, ho.owner, ho.held, ho.guard⟩
  · rintro t m r - ⟨htakes, hhanded⟩ hm hr
    have hres : toInt16 r = isixEtimeout ∨ toInt16 r = isixEcanceled := by
      rcases hr with rfl | rfl
      · rw [(htakes.waiting m hm).1]
        decide
      · decide
    refine ⟨htakes.fail hm ?_, fun a ha => ?_⟩
    · rcases hres with hres | hres <;> rw [hres] <;> decide
    · by_cases hne : a = m
      · subst hne
        rw [Scheduler.wake_node_self hm]
        exact .inr hres
      · rw [Scheduler.wake_node_of_ne hne] at ha ⊢
        exact hhanded a ha
  · rintro t _ _ _ ⟨htakes, hhanded⟩ -
    exact ⟨{ htakes with }, hhanded⟩

theorem step {e : Event} (hstep : Step e s s') : Excludes s' := by
  cases e with
  | tryLock h =>
    obtain ⟨hr, rfl⟩ := of_guard hstep
    exact hs.tryLock hr
  | unlock h =>
    obtain ⟨⟨hr, hg⟩, rfl⟩ := of_guard hstep
    exact hs.unlock hr hg
  | unlockScoped =>
    obtain ⟨h, hg, rfl⟩ := Option.map_eq_some_iff.mp hstep
    exact hs.release (hs.ownedBy_of_guard hg) (hs.handed_of_guard hg) none rfl
  | lock n h timeout isScoped cancelled foreign =>
    obtain ⟨⟨hr, hn⟩, rfl⟩ := of_guard hstep
    exact hs.lock hr hn
  | resume =>
    obtain ⟨-, ⟨n, t⟩, hr, rfl⟩ := of_guard_map hstep
    exact hs.resume hr
  | detach n =>
    obtain ⟨-, rfl⟩ := of_guard hstep
    exact hs.detach
  | background b =>
    obtain ⟨t, hb, rfl⟩ := Option.map_eq_some_iff.mp hstep
    exact hs.background hb

end

end Excludes

theorem excludes_of_run {time : Nat} (h : Run Step (.init time) s) : Excludes s :=
  h.keeps (fun _ _ _ hs hstep => hs.step hstep) (excludes_init time)

/-! ## the main result -/

/-- Nobody but the owner unlocks. -/
theorem Excludes.unlock_refused (hs : Excludes s) (hr : ∀ o ∈ s.held, s.sched.running ≠ some o) :
    Mutex.unlock s = (isixEnotlocked, s) ∨ Mutex.unlock s = (isixEperm, s) := by
  unfold Mutex.unlock
  split
  · exact .inl rfl
  next hl =>
    rcases hs.owned with hf | ⟨o, ho⟩
    · exact absurd hf.unlocked hl
    · rw [if_pos]
      · exact .inr rfl
      · rw [ho.owner]
        exact (hr o (by simp [ho.held])).symm

/-- The owner unlocks: the first waiter is the owner then and will run with `ISIX_EOK`. -/
theorem Excludes.unlock_owner (hs : Excludes s) (hh : h ∈ s.held) (hr : s.sched.running = some h) :
    (Mutex.unlock s).1 = isixEok ∧ ((Mutex.unlock s).2.locked = true ↔ s.waiters ≠ []) ∧
    (Mutex.unlock s).2.owner = s.waiters.head?.map (fun n => (s.sched.node n).h) ∧
    ∀ n ∈ s.waiters.head?,
      (Mutex.unlock s).2.sched.node n = { s.sched.node n with result := isixEok, state := .ready } := by
  obtain ⟨o, ho⟩ := hs.owned.resolve_left fun hf => by simp [hf.held] at hh
  obtain rfl : h = o := by simpa [ho.held] using hh
  have hunlock : Mutex.unlock s = (isixEok, s.release) := by
    unfold Mutex.unlock
    rw [if_neg (by simp [ho.locked]), if_neg (by simp [ho.owner, hr])]
  rw [hunlock]
  unfold State.release
  cases hw : s.waiters with
  | nil => simp
  | cons n rest =>
    have hn : (s.sched.node n).state = .waiting :=
      hs.linked.waiters_waiting 0 n (by rw [show s.sched.waiters 0 = n :: rest from hw]; simp)
    simp [ho.locked, Scheduler.wake_node_self hn, toInt16_eok]

/-- **A mutex excludes**: in every state that is reached at most one coroutine is between a successful lock
and its unlock; the mutex is locked exactly if there is one, `m_owner` is its handle, and a coroutine whose
lock got the mutex but which is not resumed yet is that one; coroutines wait only while it is locked; the locks got it in
the order in which they began, those that still wait began after all that got it, and a lock that
returned without it timed out, was cancelled or was refused; the unlock of the owner succeeds and makes the first waiter
the owner, or frees the mutex; and an unlock while the owner does not run fails and changes nothing. -/
theorem mutex_excludes (time : Nat) (s : State) (h : Run Step (.init time) s) :
    s.held.length ≤ 1 ∧ (s.locked = true ↔ s.held ≠ []) ∧ s.owner = s.held.head? ∧
    (∀ n, (s.sched.node n).state = .ready → (s.sched.node n).result = isixEok → s.held = [(s.sched.node n).h]) ∧
    (s.waiters ≠ [] → s.locked = true) ∧
    s.served.Pairwise (· < ·) ∧ (∀ b ∈ s.served, ∀ n ∈ s.waiters, b < s.ticket n) ∧
    (∀ p ∈ s.returned, p = (isixEok, 1) ∨ p.1 ∈ [isixEtimeout, isixEcanceled, isixEinvarg] ∧ p.2 = 0) ∧
    (∀ o ∈ s.held, s.sched.running = some o → (unlock s).1 = isixEok ∧
      ((unlock s).2.locked = true ↔ s.waiters ≠ []) ∧
      (unlock s).2.owner = s.waiters.head?.map (fun n => (s.sched.node n).h) ∧
      ∀ n ∈ s.waiters.head?, (unlock s).2.sched.node n = { s.sched.node n with result := isixEok, state := .ready }) ∧
    ((∀ o ∈ s.held, s.sched.running ≠ some o) →
      unlock s = (isixEnotlocked, s) ∨ unlock s = (isixEperm, s)) := by
  have hs := excludes_of_run h
  refine ⟨?_, ?_, ?_, ?_, ?_, hs.order, hs.takes.first, ?_, fun _ => hs.unlock_owner, hs.unlock_refused⟩
  · rcases hs.owned with hf | ⟨o, ho⟩
    · simp [hf.held]
    · simp [ho.held]
  · rcases hs.owned with hf | ⟨o, ho⟩
    · simp [hf.held, hf.unlocked]
    · simp [ho.held, ho.locked]
  · rcases hs.owned with hf | ⟨o, ho⟩
    · simp [hf.held, hf.owner]
    · simp [ho.held, ho.owner]
  · intro n hn hok
    rcases hs.handed n hn with ⟨-, hheld, -⟩ | herr | herr
    · exact hheld
    · simp [herr, isixEok, isixEtimeout] at hok
    · simp [herr, isixEok, isixEcanceled] at hok
  · intro hw
    rcases hs.owned with hf | ⟨o, ho⟩
    · exact absurd hf.waiters hw
    · exact ho.locked
  · rintro ⟨r, k⟩ hp
    obtain ⟨hfair, hr⟩ := hs.returned _ hp
    rcases hfair with ⟨hok, hk⟩ | ⟨hne, hk⟩
    · exact .inl (Prod.ext hok hk)
    · exact .inr ⟨(List.mem_cons.mp hr).resolve_left hne, hk⟩

/-- The coroutine 7 unlocks while 8 and 9 wait, and 9 runs again after a timeout. -/
def passedOn : Reached Step (.init 0) fun s =>
    s.held = [8] ∧ s.sched.ready = [0] ∧ s.sched.running = some 9 ∧ s.returned = [(isixEtimeout, 0), (isixEok, 1)] :=
  reached (fun _ _ _ h => h)
    [.background (.enter 7), .lock 2 7 0 true false false, .background .leave,
      .background (.enter 9), .lock 1 9 1 false false false, .background .tick, .background .timers,
      .background (.enter 8), .lock 0 8 0 false false false, .resume, .unlockScoped] (by decide +kernel)

theorem passedOn_excludes : ∃ s, Run Step (.init 0) s ∧ s.sched.running = some 9 ∧ s.owner = some 8 ∧
    unlock s = (isixEperm, s) := by
  obtain ⟨s, hrun, hheld, -, hr, -⟩ := passedOn
  obtain ⟨-, hlocked, howner, -, -, -, -, -, -, hunlock⟩ := mutex_excludes 0 s hrun
  refine ⟨s, hrun, hr, by rw [howner, hheld]; rfl, (hunlock ?_).resolve_left ?_⟩
  · simp [hheld, hr]
  · intro he
    have hl : s.locked = true := hlocked.mpr (by simp [hheld])
    simp [unlock, hl, howner, hheld, hr, isixEperm, isixEnotlocked] at he

end Isix.Co.Mutex
