import Isix.Ownership
import Isix.Recorded

/-!
# Isix.Properties.OldestMutex

Which mutex `isix_condvar_wait` gives up.  The contract says the oldest one the
caller owns; the code takes the head of the `owned_mutexes` list.  The two are
the same as long as the head stays: `list_insert_first` links a new mutex
behind the first one, so the rest of the list is newest first, and when the
head is released the newest of the rest takes its place.  A head that was
locked several times is unlocked once and stays with the sleeping caller.
-/

namespace Isix

open Kernel Outcome

/-! ## when an ownership began -/

/-- The number of events so far, and the event that gave each mutex to its
current owner. -/
structure Dates where
  clock : Nat
  born : MtxId → Nat

def Dates.start : Dates := { clock := 0, born := fun _ => 0 }

/-- Date the mutexes whose owner is another one now. -/
def Dates.record : Recorder Dates := fun _ s r g =>
  { clock := g.clock + 1
    born := fun m => if (r.1.mutex m).owner = (s.mutex m).owner then g.born m else g.clock }

/-- The ownership of `m` by `t` began before that of every other mutex of `t`. -/
def Oldest (s : Kernel) (g : Dates) (t : TaskId) (m : MtxId) : Prop :=
  (s.mutex m).owner = some t ∧ ∀ m', (s.mutex m').owner = some t → m' ≠ m → g.born m < g.born m'

/-! ## the condition -/

/-- The event takes the head of the list from a task that keeps two more. -/
def DropsOldest (e : Event) (s : Kernel) : Bool :=
  (e.drops? s).any fun m => (s.mutex m).owner.any fun o =>
    decide ((s.task o).ownedMutexes.head? = some m) && decide (2 < (s.task o).ownedMutexes.length)

/-- **Condition on the events**: no task that owns three or more mutexes loses
the one it has owned longest and keeps the others. -/
def KeepsOldest (e : Event) (s : Kernel) : Prop := BootOk e s ∧ DropsOldest e s = false

instance (e : Event) (s : Kernel) : Decidable (KeepsOldest e s) := instDecidableAnd

variable {l : List MtxId}

theorem DropsOldest.of_head {e : Event} {s : Kernel} {m : MtxId} {t : TaskId}
    (hd : e.drops? s = some m) (ho : (s.mutex m).owner = some t) (hl : (s.task t).ownedMutexes = m :: l)
    (hlen : 1 < l.length) : DropsOldest e s = true := by
  have hlen' : 2 < (m :: l).length := Nat.succ_lt_succ hlen
  simp only [DropsOldest, hd, ho, hl, Option.any_some, List.head?_cons, decide_true, Bool.true_and]
  exact decide_eq_true hlen'

/-! ## the head of the list is the oldest -/

section

variable [Config] {s : Kernel} {g : Dates} {t : TaskId} {m : MtxId} {e : Event}

/-- The head of every list was there first. -/
structure Dated (s : Kernel) (g : Dates) : Prop where
  past : ∀ m, (s.mutex m).owner ≠ none → g.born m < g.clock
  head : ∀ t m l, (s.task t).ownedMutexes = m :: l → ∀ m' ∈ l, g.born m < g.born m'

namespace Dated

theorem start (hi : Inv s) (hm : ∀ m, (s.mutex m).owner = none) : Dated s .start := by
  refine ⟨fun m ho => absurd (hm m) ho, fun t m l hl => ?_⟩
  have hown := hi.good.mem_owned.mp (hl ▸ List.mem_cons_self)
  rw [hm m] at hown
  cases hown

section

variable {r : Kernel × Answer}

omit [Config] in
/-- A mutex that did not change hands. -/
theorem born_eq (ho : (s.mutex m).owner = some t) (ho' : (r.1.mutex m).owner = some t) :
    (Dates.record e s r g).born m = g.born m := if_pos (ho'.trans ho.symm)

theorem step_gain (h : Dated s g) (hi : Inv s) (hi' : Inv r.1)
    (hl : (r.1.task t).ownedMutexes = insertFirst m (s.task t).ownedMutexes)
    (ho : (s.mutex m).owner ≠ some t) {a : MtxId}
    (hal : (r.1.task t).ownedMutexes = a :: l) :
    ∀ m' ∈ l, (Dates.record e s r g).born a < (Dates.record e s r g).born m' := by
  have hown' : ∀ m', m' ∈ (r.1.task t).ownedMutexes → (r.1.mutex m').owner = some t := fun _ =>
    hi'.good.mem_owned.mp
  cases hs : (s.task t).ownedMutexes with
  | nil =>
    rw [hs, hal] at hl
    cases hl
    exact fun m' hm' => absurd hm' List.not_mem_nil
  | cons b k =>
    have hold : ∀ m', m' ∈ b :: k → (s.mutex m').owner = some t := fun m' hm' =>
      hi.good.mem_owned.mp (hs ▸ hm')
    rw [hs, hal] at hl
    cases hl
    have ha : (Dates.record e s r g).born a = g.born a :=
      born_eq (hold a List.mem_cons_self) (hown' a (by simp [hal]))
    intro m' hm'
    rw [ha]
    rcases List.mem_cons.mp hm' with rfl | hk
    · -- the new mutex is dated now, behind every date so far
      have hnew : (Dates.record e s r g).born m' = g.clock := by
        refine if_neg fun he => ho ?_
        rw [← he]
        exact hown' m' (by simp [hal])
      rw [hnew]
      exact h.past a (by simp [hold a List.mem_cons_self])
    · rw [born_eq (hold m' (List.mem_cons_of_mem _ hk)) (hown' m' (by simp [hal, hk]))]
      exact h.head t a k hs m' hk

theorem step_keep (h : Dated s g) (hi : Inv s) (hi' : Inv r.1) (hc : DropsOldest e s = false)
    (hl : (r.1.task t).ownedMutexes.Sublist (s.task t).ownedMutexes)
    (hk : ∀ m ∈ (s.task t).ownedMutexes, e.drops? s ≠ some m → m ∈ (r.1.task t).ownedMutexes)
    {a : MtxId} (hal : (r.1.task t).ownedMutexes = a :: l) :
    ∀ m' ∈ l, (Dates.record e s r g).born a < (Dates.record e s r g).born m' := by
  have hsame : ∀ m', m' ∈ a :: l → (Dates.record e s r g).born m' = g.born m' := fun m' hm' =>
    born_eq (hi.good.mem_owned.mp (hl.subset (hal ▸ hm'))) (hi'.good.mem_owned.mp (hal ▸ hm'))
  cases hs : (s.task t).ownedMutexes with
  | nil =>
    rw [hs, hal] at hl
    cases hl
  | cons b k =>
    rw [hs, hal] at hl
    intro m' hm'
    rw [hsame a List.mem_cons_self, hsame m' (List.mem_cons_of_mem _ hm')]
    cases hl with
    | cons_cons _ hlk => exact h.head t a k hs m' (hlk.subset hm')
    | cons _ hak =>
      -- the head is gone: it was dropped, and at most one mutex was left
      have hb : (s.mutex b).owner = some t := hi.good.mem_owned.mp (by simp [hs])
      have hnot : b ∉ (r.1.task t).ownedMutexes := by
        rw [hal]
        intro hmem
        have hnodup := hi.good.core.mutex.linked.nodup t
        rw [hs, List.nodup_cons] at hnodup
        exact hnodup.1 (hak.subset hmem)
      have hd : e.drops? s = some b := by
        by_contra hd
        exact hnot (hk b (by simp [hs]) hd)
      have hlen : ¬1 < k.length := fun hlen => by
        rw [DropsOldest.of_head hd hb hs hlen] at hc
        cases hc
      have hle := hak.length_le
      have hpos := List.length_pos_of_mem hm'
      simp only [List.length_cons] at hle
      omega

theorem step (h : Dated s g) (hi : Inv s) (he : enabled s e = true) (hc : KeepsOldest e s)
    (hs : Isix.step e s = .ok r) : Dated r.1 (Dates.record e s r g) := by
  have hi' : Inv r.1 := hi.step he hc.1 hs
  constructor
  · intro m ho
    show (if _ then g.born m else g.clock) < g.clock + 1
    split
    · rename_i heq
      rw [heq] at ho
      exact Nat.lt_succ_of_lt (h.past m ho)
    · exact Nat.lt_succ_self _
  · intro t a l hal
    cases step_owned hi he hc.1 hs t with
    | gain m hl ho => exact h.step_gain hi hi' hl ho hal
    | keep hl hk => exact h.step_keep hi hi' hc.2 hl hk hal
    | lose hl =>
      rw [hl] at hal
      cases hal

end

theorem oldest (h : Dated s g) (hi : Inv s) (hl : (s.task t).ownedMutexes = m :: l) : Oldest s g t m := by
  refine ⟨hi.good.mem_owned.mp (by simp [hl]), fun m' ho hne => ?_⟩
  have hmem := hi.good.mem_owned.mpr ho
  rw [hl] at hmem
  exact h.head t m l hl m' ((List.mem_cons.mp hmem).resolve_left hne)

end Dated

theorem Recorded.dated (h : Recorded Dates.record KeepsOldest .start s g) : Dated s g := by
  refine h.keeps (fun _ _ hc => hc.1) (fun s hi => .start (.init hi) fun m => ?_)
    fun e s g r hi h he hc hs => h.step hi he hc hs
  rw [((isixInit_spec (E := fun _ => True)).of_ok hi).2.mutex m]

/-! ## the mutex a wait gives up -/

/-- The mutex `m` leaves the caller of `isix_condvar_wait`, which sleeps until it can lock it again. -/
def GivesUp (s s' : Kernel) (m : MtxId) : Prop :=
  (s.mutex m).owner = some s.currp ∧ (s'.mutex m).owner ≠ some s.currp ∧
    (s'.task s'.currp).frame = .condvarWait m

/-- The mutex `m` was locked once. -/
def LockedOnce (s : Kernel) (m : MtxId) : Prop := toInt32 ((s.mutex m).count - 1) = 0

instance (s : Kernel) (m : MtxId) : Decidable (LockedOnce s m) := inferInstanceAs (Decidable (_ = _))

/-- The last unlock takes the mutex from its owner. -/
theorem isixMutexUnlock_last {r : Kernel × Answer} (hgood : Good s) (hcall : Caller s)
    (ho : (s.mutex m).owner = some s.currp) (hz : LockedOnce s m) (hs : isixMutexUnlock (some m) s = .ok r) :
    (r.1.mutex m).owner ≠ some s.currp := by
  have h₁ := Does.count (A := fun _ _ => True) hgood (n := toInt32 ((s.mutex m).count - 1)) ho trivial
  have hcount : ((s.withMutex m fun x => { x with count := toInt32 (x.count - 1) }).mutex m).count = 0 := by
    simpa [Kernel.withMutex, LockedOnce] using hz
  unfold isixMutexUnlock at hs
  simp only [ho, ne_eq, not_true_eq_false, if_false] at hs
  split at hs
  · cases hs
  · obtain ⟨s₁, hrel, hr⟩ := of_bind_ok hs
    cases hr
    exact ((releaseMutex_spec (E := fun _ => True) (A := fun _ _ => True) (M := fun _ => True) (fun _ _ _ => trivial)
      ⟨by simp, by simp, by simp, by simp⟩ trivial h₁.ok rfl ⟨hcall.active, hcall.not_idle⟩
      (by simpa [Kernel.withMutex] using ho) hcount).of_ok hrel).2

theorem isixMutexUnlock_returns {r : Kernel × Answer} (hs : isixMutexUnlock (some m) s = .ok r) :
    r.2 ≠ .blocked := by
  unfold isixMutexUnlock at hs
  dsimp only at hs
  split at hs
  · cases hs
    simp
  split at hs
  · cases hs
  split at hs
  · cases hs
    simp
  split at hs
  · obtain ⟨s₁, -, hr⟩ := of_bind_ok hs
    cases hr
    simp
  · cases hs
    simp

theorem isixCondvarWait_blocked {cv : Option CondId} {timeout : Nat} {s' : Kernel}
    (hs : isixCondvarWait cv timeout s = .ok (s', .blocked)) :
    ∃ m l v s₁, (s.task s.currp).ownedMutexes = m :: l ∧ isixMutexUnlock (some m) s = .ok (s₁, .code isixEok) ∧
      condvarSleep v m timeout s₁ = .ok (s', .blocked) := by
  unfold isixCondvarWait at hs
  cases cv with
  | none => cases hs
  | some v =>
    simp only at hs
    split at hs
    · cases hs
    cases htop : isixpGetTopCurrtMutex s with
    | none =>
      rw [htop] at hs
      cases hs
    | some m =>
      rw [htop] at hs
      obtain ⟨⟨s₁, ret⟩, hun, hrest⟩ := of_bind_ok hs
      split at hrest
      · rename_i hret
        subst hret
        obtain ⟨l, hl⟩ := List.head?_eq_some_iff.mp htop
        exact ⟨m, l, v, s₁, hl, hun, hrest⟩
      · cases hrest
        exact absurd rfl (isixMutexUnlock_returns hun)

/-- A wait that sleeps gives up the head of the list if it was locked once, and no mutex otherwise. -/
theorem isixCondvarWait_givesUp {cv : Option CondId} {timeout : Nat} {s' : Kernel} (hgood : Good s) (hcall : Caller s)
    (hs : isixCondvarWait cv timeout s = .ok (s', .blocked)) :
    ∃ a l, (s.task s.currp).ownedMutexes = a :: l ∧ ∀ m, GivesUp s s' m ↔ m = a ∧ LockedOnce s a := by
  obtain ⟨a, l, v, s₁, hl, hun, hsleep⟩ := isixCondvarWait_blocked hs
  have ho : (s.mutex a).owner = some s.currp := hgood.mem_owned.mp (by simp [hl])
  obtain ⟨-, hmtx, hframe⟩ := condvarSleep_spec hsleep
  refine ⟨a, l, hl, fun m => ⟨fun ⟨_, hleft, hfr⟩ => ?_, ?_⟩⟩
  · have hm : m = a := by
      rw [hframe] at hfr
      cases hfr
      rfl
    subst hm
    refine ⟨rfl, ?_⟩
    by_contra hnest
    -- an unlock that is not the last one leaves the owner
    have hs₁ := congrArg Prod.fst (isixMutexUnlock_nested ho hnest hun)
    refine hleft ?_
    rw [hmtx, show s₁ = _ from hs₁]
    simpa [Kernel.withMutex] using ho
  · rintro ⟨rfl, honce⟩
    refine ⟨ho, ?_, hframe⟩
    rw [hmtx]
    exact isixMutexUnlock_last hgood hcall ho honce hun

/-- **The oldest mutex**: in every run whose events meet the condition, a call
of `isix_condvar_wait` that goes to sleep gives up the mutex whose ownership by
the caller began first, if and only if the caller locked the head of its list
once. -/
theorem condvarWait_gives_up_oldest {cv : Option CondId} {timeout : Nat} {s' : Kernel}
    (h : Recorded Dates.record KeepsOldest .start s g) (he : enabled s (.call (.condvarWait cv timeout)) = true)
    (hs : step (.call (.condvarWait cv timeout)) s = .ok (s', .blocked)) :
    (∃ m, GivesUp s s' m ∧ Oldest s g s.currp m) ↔
      ∀ m ∈ (s.task s.currp).ownedMutexes.head?, LockedOnce s m := by
  have hi : Inv s := h.inv fun _ _ hc => hc.1
  obtain ⟨a, l, hl, hgives⟩ := isixCondvarWait_givesUp hi.good (caller_of_call he).2.1 hs
  have hold : Oldest s g s.currp a := h.dated.oldest hi hl
  simp only [hgives, hl, List.head?_cons, Option.mem_def, Option.some.injEq]
  constructor
  · rintro ⟨m, ⟨rfl, honce⟩, -⟩ m' rfl
    exact honce
  · intro honce
    exact ⟨a, ⟨rfl, honce a rfl⟩, hold⟩

/-- The call goes to sleep. -/
def sleeps (e : Event) (s : Kernel) : Bool :=
  match step e s with
  | .ok (_, .blocked) => true
  | _ => false

theorem exists_of_sleeps {e : Event} (h : sleeps e s = true) : ∃ s', step e s = .ok (s', .blocked) := by
  unfold sleeps at h
  split at h
  · rename_i s' hs
    exact ⟨s', hs⟩
  · cases h

end

/-- A task locks three mutexes. -/
def locksThree : List Event :=
  [.boot (.taskCreate 1 false false), .start, .call .condvarCreate, .call .mutexCreate, .call .mutexCreate,
    .call .mutexCreate, .call (.mutexLock (some 0)), .call (.mutexLock (some 1)),
    .call (.mutexLock (some 2))]

/-- The newest one is unlocked, then the oldest one is given up. -/
theorem threeMutexes_gives_up_oldest : ∃ (_ : Config) (s s' : Kernel) (g : Dates),
    Recorded Dates.record KeepsOldest .start s g ∧ (s.task s.currp).ownedMutexes = [0, 1] ∧
      step (.call (.condvarWait (some 0) 0)) s = .ok (s', .blocked) ∧
        ∃ m, GivesUp s s' m ∧ Oldest s g s.currp m := by
  let _ := smallConfig
  obtain ⟨s, g, hr, hl, honce, he, hsl⟩ := exists_recorded (f := Dates.record) (C := KeepsOldest) (i := .start)
    (locksThree ++ [.call (.mutexUnlock (some 2))])
    (P := fun s _ => (s.task s.currp).ownedMutexes = [0, 1] ∧ LockedOnce s 0 ∧
      enabled s (.call (.condvarWait (some 0) 0)) = true ∧ sleeps (.call (.condvarWait (some 0) 0)) s = true)
    (by decide +kernel)
  obtain ⟨s', hs⟩ := exists_of_sleeps hsl
  refine ⟨_, s, s', g, hr, hl, hs, (condvarWait_gives_up_oldest hr he hs).mpr fun m hm => ?_⟩
  rw [hl] at hm
  cases hm
  exact honce

/-- The oldest of three mutexes is unlocked: the wait gives up the newest one
of the two that are left. -/
theorem condvarWait_gives_up_newest : ∃ (_ : Config) (s s' : Kernel) (g : Dates),
    Recorded Dates.record BootOk .start s g ∧ (s.mutex 1).owner = some s.currp ∧ g.born 1 < g.born 2 ∧
      step (.call (.condvarWait (some 0) 0)) s = .ok (s', .blocked) ∧ GivesUp s s' 2 ∧
        ¬Oldest s g s.currp 2 := by
  let _ := smallConfig
  obtain ⟨s, g, hr, hl, ho, hb, honce, he, hsl⟩ := exists_recorded (f := Dates.record) (C := BootOk) (i := .start)
    (locksThree ++ [.call (.mutexUnlock (some 0))])
    (P := fun s g => (s.task s.currp).ownedMutexes = [2, 1] ∧ (s.mutex 1).owner = some s.currp ∧
      g.born 1 < g.born 2 ∧ LockedOnce s 2 ∧ enabled s (.call (.condvarWait (some 0) 0)) = true ∧
      sleeps (.call (.condvarWait (some 0) 0)) s = true) (by decide +kernel)
  obtain ⟨s', hs⟩ := exists_of_sleeps hsl
  obtain ⟨a, l, hal, hgives⟩ := isixCondvarWait_givesUp (hr.inv fun _ _ hc => hc).good (caller_of_call he).2.1
    (show isixCondvarWait (some 0) 0 s = .ok (s', .blocked) from hs)
  rw [hl] at hal
  cases hal
  refine ⟨_, s, s', g, hr, ho, hb, hs, (hgives 2).mpr ⟨rfl, honce⟩, fun hold => ?_⟩
  have := hold.2 1 ho (by decide)
  omega

end Isix
