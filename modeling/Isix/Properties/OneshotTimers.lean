import Isix.Properties.TimerLists

/-!
# Isix.Properties.OneshotTimers

One-shot timers fire once and on time.  `Oneshot` is the story of one timer: it
waits on the list of its deadline, or it has called its callback once.  In a
system of one-shot timers the worker comes to the end of every round, and the
story goes on over any sequence of rounds.

A start that is read a whole counter range after its stamp is the exception:
the age of a command is known modulo the range only.
-/

namespace Isix.Softtimers

open Function (update)
open VtimerContext Intrusive

variable {K : Callbacks} {N fuel : Nat} {c c' : VtimerContext} {x y : TmrId} {J : Story}

/-! ## one-shot timers -/

/-- No timer but those in `X` is cyclic, and `isix_vtimer_mod` is not called for those any more. -/
structure OneshotBut (K : Callbacks) (X : Set TmrId) (c : VtimerContext) : Prop where
  oneshot : ∀ y, y ∉ X → (c.vtimer y).cyclic = false
  spared : ∀ y ∈ X, Spared K y c

variable {X : Set TmrId}

/-- The number of timers on the two lists. -/
def VtimerContext.size (c : VtimerContext) : Nat := (c.lists false).length + (c.lists true).length

theorem size_eq (c : VtimerContext) (b : Bool) :
    c.size = (c.lists b).length + (c.lists !b).length := by
  cases b <;> simp [VtimerContext.size, Nat.add_comm]

theorem SameLists.size (h : SameLists c c') : c'.size = c.size := by
  rw [VtimerContext.size, h.lists, VtimerContext.size]

theorem listDelete_size_le : (c.listDelete x).size ≤ c.size := by
  unfold listDelete
  cases (c.vtimer x).inode with
  | none => exact Nat.le_refl _
  | some b =>
    have := List.length_erase_le (a := x) (l := c.lists b)
    cases b <;> simp [VtimerContext.size] <;> omega

theorem addListWithPrio_size (b : Bool) : (addListWithPrio b x c).size = c.size + 1 := by
  cases b <;> simp [addListWithPrio, VtimerContext.size, withTimer] <;> omega

section

variable (h : OneshotBut K X c)

include h

theorem OneshotBut.unmodified (x : TmrId) : Unmodified K x c := by
  by_cases hx : x ∈ X
  · exact .inl (h.spared x hx)
  · exact .inr (h.oneshot x hx)

/-- Work on the timer `x`. -/
theorem OneshotBut.of_ne (hne : ∀ y, x ≠ y → Apart y c c')
    (hx : x ∉ X → (c'.vtimer x).cyclic = false) (hgrows : c.invoked.length ≤ c'.invoked.length) :
    OneshotBut K X c' := by
  refine ⟨fun y hy => ?_, fun y hy => (h.spared y hy).mono hgrows⟩
  by_cases hxy : x = y
  · subst hxy
    exact hx hy
  · rw [(hne y hxy).vtimer]
    exact h.oneshot y hy

theorem OneshotBut.execTimerCallback : OneshotBut K X (execTimerCallback K x c) :=
  h.of_ne (fun y hxy => apart_execTimerCallback hxy (h.unmodified y)) (fun hx => by
    rw [execTimerCallback_oneshot (h.oneshot x hx)]
    exact h.oneshot x hx) execTimerCallback_grows

theorem OneshotBut.listDelete : OneshotBut K X (c.listDelete x) :=
  h.of_ne (fun _ => apart_listDelete) (fun hx => by
    rw [listDelete_self]
    exact h.oneshot x hx) (by rw [listDelete_invoked])

theorem OneshotBut.withTimer {g : Vtimer → Vtimer}
    (hg : x ∉ X → (g (c.vtimer x)).cyclic = false) : OneshotBut K X (c.withTimer x g) :=
  h.of_ne (fun _ => apart_withTimer) (fun hx => by
    simpa [VtimerContext.withTimer] using hg hx) le_rfl

theorem OneshotBut.addVtimerToList : OneshotBut K X (addVtimerToList N x c) :=
  h.of_ne (fun _ => apart_addVtimerToList) (fun hx => by
    rw [addVtimerToList_self]
    exact h.oneshot x hx) le_rfl

theorem OneshotBut.handleCancel : OneshotBut K X (handleCancel x c) := by
  unfold Softtimers.handleCancel
  split
  · exact h.listDelete.withTimer (h.listDelete.oneshot x)
  · exact h

theorem OneshotBut.handleAdd {param : StartParam}
    (hp : param.tmr ∉ X → param.cyclic = false) : OneshotBut K X (handleAdd K N param c) := by
  unfold Softtimers.handleAdd
  dsimp only
  generalize hd : c.withTimer param.tmr _ = d
  have hds : OneshotBut K X d := by
    rw [← hd]
    exact h.withTimer hp
  have hexec : OneshotBut K X (Softtimers.execTimerCallback K param.tmr d) := hds.execTimerCallback
  split
  · split
    · exact (hexec.withTimer (hexec.oneshot param.tmr)).addVtimerToList
    · exact hexec
  · exact hds.addVtimerToList

end

theorem rescheduleIfCyclic_oneshot (h : (c.vtimer x).cyclic = false) :
    rescheduleIfCyclic K N fuel x c = some c := by
  rw [rescheduleIfCyclic, if_neg (by rw [h]; decide)]

theorem listDelete_size {b : Bool} (h : Shape c) (hi : (c.vtimer x).inode = some b) :
    (c.listDelete x).size + 1 = c.size := by
  have hmem : x ∈ c.lists b := h.linked.mem_iff.mpr hi
  have hlen := List.length_erase_of_mem hmem
  have hpos := List.length_pos_of_mem hmem
  unfold listDelete
  rw [hi]
  cases b <;> simp [VtimerContext.size] <;> omega

/-- No deadline of a timer in `X` has come. -/
def Settled (X : Set TmrId) (N : Nat) (c : VtimerContext) : Prop :=
  ∀ y ∈ X, (c.vtimer y).inode = some c.pVtimerList → N < (c.vtimer y).jiffies

theorem settled_empty (N : Nat) (c : VtimerContext) : Settled ∅ N c := fun y hy =>
  (Set.notMem_empty y hy).elim

/-- The loop of `handle_time` ends when only one-shot timers are due: every
round takes a timer from the list. -/
theorem handleTimeLoop_returns : ∀ (fuel : Nat) {c : VtimerContext}, Shape c →
    OneshotBut K X c → Settled X N c → c.size < fuel →
    ∃ c', handleTimeLoop K N fuel c = some c' ∧ OneshotBut K X c' ∧ c'.size ≤ c.size := by
  intro fuel
  induction fuel with
  | zero =>
    intro c _ _ _ hf
    cases hf
  | succ fuel ih =>
    intro c hs ho hX' hf
    rw [handleTimeLoop]
    cases hl : c.lists c.pVtimerList with
    | nil => exact ⟨c, rfl, ho, Nat.le_refl _⟩
    | cons y ys =>
      dsimp only
      split
      · rename_i hdue
        have hi := hs.head_inode hl
        have hy : y ∉ X := fun hy => Nat.not_le_of_lt (hX' y hy hi) hdue
        have hsame := execTimerCallback_sameLists (K := K) (c := c) y
        have hsize := listDelete_size (hsame.shape hs) ((hsame.inode y).trans hi)
        rw [hsame.size] at hsize
        have ho' : OneshotBut K X ((execTimerCallback K y c).listDelete y) := ho.execTimerCallback.listDelete
        have hset : Settled X N ((execTimerCallback K y c).listDelete y) := by
          intro z hz hzi
          have hne : y ≠ z := fun h => hy (h ▸ hz)
          have hap := (apart_execTimerCallback hne (ho.unmodified z)).trans
            (apart_listDelete hne)
          rw [hap.vtimer, hap.list] at hzi
          rw [hap.vtimer]
          exact hX' z hz hzi
        rw [rescheduleIfCyclic_oneshot (ho'.oneshot y hy), Option.bind_some]
        obtain ⟨c', he, hc', hle⟩ := ih (hsame.shape hs).listDelete ho' hset (by omega)
        exact ⟨c', he, hc', by omega⟩
      · exact ⟨c, rfl, ho, Nat.le_refl _⟩

/-- The loop of `switch_timer_list` fires every timer of the old epoch. -/
theorem switchLoop_oneshot
    (hfire : ∀ c : VtimerContext, c.tells x J → (c.vtimer x).inode = some c.pVtimerList →
      (execTimerCallback K x (c.listDelete x)).tells x J) :
    ∀ (l : List TmrId) (fuel : Nat) {c : VtimerContext}, c.lists c.pVtimerList = l → l.length ≤ fuel →
      Shape c → OneshotBut K X c → (∀ y ∈ l, y ∉ X) → c.tells x J →
      ∃ c', switchLoop K N fuel l.head? c = some c' ∧ Shape c' ∧ OneshotBut K X c' ∧ c'.tells x J ∧
        c'.lists c'.pVtimerList = [] ∧ c'.size ≤ c.size := by
  intro l
  induction l with
  | nil =>
    intro fuel c hl _ hs ho _ hJ
    refine ⟨c, ?_, hs, ho, hJ, hl, Nat.le_refl _⟩
    cases fuel <;> rfl
  | cons y ys ih =>
    intro fuel c hl hf hs ho hnot hJ
    obtain ⟨fuel, rfl⟩ : ∃ n, fuel = n + 1 := ⟨fuel - 1, by simp only [List.length_cons] at hf; omega⟩
    have hi := hs.head_inode hl
    have hsame := execTimerCallback_sameLists (K := K) (c := c.listDelete y) y
    have ho' : OneshotBut K X (execTimerCallback K y (c.listDelete y)) := ho.listDelete.execTimerCallback
    have hl' : (execTimerCallback K y (c.listDelete y)).lists
        (execTimerCallback K y (c.listDelete y)).pVtimerList = ys := by
      rw [hsame.lists, hsame.list, listDelete_list]
      simp [listDelete, hi, hl]
    have hJ' : (execTimerCallback K y (c.listDelete y)).tells x J := by
      by_cases hy : y = x
      · subst hy
        exact hfire c hJ hi
      · exact ((apart_listDelete hy).trans
          (apart_execTimerCallback hy (ho.listDelete.unmodified x))).tells hJ
    obtain ⟨c', he, hs', hc', htells, hnil, hle⟩ := ih fuel hl'
      (by simp only [List.length_cons] at hf; omega) (hsame.shape hs.listDelete) ho'
      (fun z hz => hnot z (List.mem_cons_of_mem y hz)) hJ'
    refine ⟨c', ?_, hs', hc', htells, hnil, ?_⟩
    · rw [List.head?_cons, switchLoop, rescheduleIfCyclic_oneshot (ho'.oneshot y (hnot y List.mem_cons_self)),
        Option.bind_some, hl]
      simpa [next?] using he
    · rw [hsame.size] at hle
      exact hle.trans listDelete_size_le

/-- The story of a one-shot timer with the real deadline `due`: it waits, or it
has called its callback once; `k` counts the earlier calls. -/
structure Oneshot (due e k t : Nat) (v : Vtimer) (n : Nat) (p : Bool) : Prop where
  callback : ∃ f, v.callback = some f
  cyclic : v.cyclic = false
  state : Placed due e v p ∧ v.isActive = true ∧ n = k ∨
    v.inode = none ∧ v.isActive = false ∧ n = k + 1 ∧ due ≤ t

section

variable {due e k t : Nat}

section

variable (h : c.tells x (Oneshot due e k t))

include h

theorem Oneshot.later {t' : Nat} (ht : t ≤ t') :
    c.tells x (Oneshot due e k t') :=
  ⟨h.callback, h.cyclic, h.state.imp id fun hd => ⟨hd.1, hd.2.1, hd.2.2.1, hd.2.2.2.trans ht⟩⟩

section

variable (hp : (c.vtimer x).inode = some c.pVtimerList)

include hp

/-- A timer on the current list waits. -/
theorem Oneshot.placed :
    Placed due e (c.vtimer x) c.pVtimerList ∧ c.calls x = k := by
  obtain hw | hd := h.state
  · exact ⟨hw.1, hw.2.2⟩
  · rw [hd.1] at hp
    cases hp

/-- The timer has fired. -/
theorem Oneshot.fired
    (hdue : due ≤ t) (hv : c'.vtimer x = { c.vtimer x with inode := none, isActive := false })
    (hcalls : c'.calls x = c.calls x + 1) : c'.tells x (Oneshot due e k t) := by
  refine ⟨?_, ?_, .inr ⟨?_, ?_, ?_, hdue⟩⟩
  · rw [hv]
    exact h.callback
  · rw [hv]
    exact h.cyclic
  · rw [hv]
  · rw [hv]
  · rw [hcalls, (Oneshot.placed h hp).2]

/-- Firing, in the order of `handle_time`. -/
theorem Oneshot.fire (hdue : due ≤ t) :
    ((execTimerCallback K x c).listDelete x).tells x (Oneshot due e k t) := by
  obtain ⟨f, hf⟩ := h.callback
  refine Oneshot.fired h hp hdue ?_ ?_
  · rw [listDelete_self, execTimerCallback_oneshot h.cyclic]
  · rw [VtimerContext.calls, listDelete_invoked]
    exact execTimerCallback_calls hf

/-- Firing, in the order of `switch_timer_list`. -/
theorem Oneshot.fire_unlinked (hdue : due ≤ t) :
    (execTimerCallback K x (c.listDelete x)).tells x (Oneshot due e k t) := by
  obtain ⟨f, hf⟩ := h.callback
  have hv := listDelete_self (c := c) (x := x)
  refine Oneshot.fired h hp hdue ?_ ?_
  · rw [execTimerCallback_oneshot (by rw [hv]; exact h.cyclic), hv]
  · rw [execTimerCallback_calls (by rw [hv]; exact hf), VtimerContext.calls, listDelete_invoked]
    rfl

end

end

/-- After `handle_time` at `t` the timer still waits exactly if its deadline is
later than `t`. -/
def OneshotAt (due k t : Nat) : Story := fun v n p =>
  Oneshot due (t / tickMod) k t v n p ∧ (v.inode ≠ none → t < due)

theorem handleTimeLoop_oneshot (hs : Shape c) (ho : OneshotBut K ∅ c) (hf : c.size < fuel)
    (h : c.tells x (Oneshot due (t / tickMod) k t)) :
    ∃ c', handleTimeLoop K (toTick t) fuel c = some c' ∧ c'.tells x (OneshotAt due k t) := by
  obtain ⟨c', he, -, -⟩ := handleTimeLoop_returns fuel hs ho
    (settled_empty (toTick t) c) hf
  obtain ⟨hJ, -, hrest⟩ := handleTimeLoop_spec
    (fun fuel c c' _ hc hp hj hr => by
      have hfired := Oneshot.fire (K := K) hc hp ((Oneshot.placed hc hp).1.due_le hp hj)
      rw [rescheduleIfCyclic_oneshot hfired.cyclic] at hr
      cases hr
      exact ⟨hfired, .inr hfired.cyclic⟩) fuel he hs h (.inr h.cyclic)
  refine ⟨c', he, hJ, fun hi => ?_⟩
  obtain hw | hd := hJ.state
  · exact hw.1.lt_due (hrest x)
  · exact (hi hd.1).elim

/-- A change of the epoch fires what is left on the current list. -/
theorem switchTimerList_oneshot (hs : Shape c) (ho : OneshotBut K ∅ c) (hf : c.size ≤ fuel)
    (h : c.tells x (Oneshot due e k t)) (hdue : due / tickMod = e → due ≤ t) :
    ∃ c', switchTimerList K N fuel c = some c' ∧ Shape c' ∧ OneshotBut K ∅ c' ∧
      c'.size ≤ c.size ∧ c'.tells x (Oneshot due (e + 1) k t) := by
  obtain ⟨c', he, hs', ho', hJ, hnil, hle⟩ := switchLoop_oneshot
    (fun c hc hp => Oneshot.fire_unlinked hc hp (hdue ((Oneshot.placed hc hp).1.epoch_of_current hp)))
    _ fuel rfl (by rw [size_eq c c.pVtimerList] at hf; omega) hs ho (fun y _ => Set.notMem_empty y) h
  refine ⟨{ c' with pVtimerList := !c'.pVtimerList }, ?_, ⟨hs'.linked, hs'.sorted⟩,
    ⟨ho'.oneshot, ho'.spared⟩, hle, ?_⟩
  · rw [switchTimerList, he]
    rfl
  · have hnot : (c'.vtimer x).inode ≠ some c'.pVtimerList := by
      rw [Ne, ← hs'.linked.mem_iff, hnil]
      exact List.not_mem_nil
    exact ⟨hJ.callback, hJ.cyclic, hJ.state.imp (fun hw => ⟨hw.1.swap hnot, hw.2⟩) id⟩

theorem switchTimerList_plain (hs : Shape c) (ho : OneshotBut K X c)
    (hnot : ∀ y ∈ c.lists c.pVtimerList, y ∉ X) (hf : c.size ≤ fuel) :
    ∃ c', switchTimerList K N fuel c = some c' ∧ OneshotBut K X c' ∧ c'.size ≤ c.size := by
  obtain ⟨c', he, -, ho', -, -, hle⟩ := switchLoop_oneshot (x := 0)
    (J := fun _ _ _ => True) (fun _ _ _ => trivial) _ fuel rfl
    (by rw [size_eq c c.pVtimerList] at hf; omega) hs ho hnot trivial
  refine ⟨{ c' with pVtimerList := !c'.pVtimerList }, ?_, ⟨ho'.oneshot, ho'.spared⟩, hle⟩
  rw [switchTimerList, he]
  rfl

theorem switchIf_plain {b : Bool} (hs : Shape c) (ho : OneshotBut K X c)
    (hnot : b = true → ∀ y ∈ c.lists c.pVtimerList, y ∉ X) (hf : c.size ≤ fuel) :
    ∃ c', switchIf K N fuel b c = some c' ∧ OneshotBut K X c' ∧ c'.size ≤ c.size := by
  cases b with
  | true => exact switchTimerList_plain hs ho (hnot rfl) hf
  | false => exact ⟨c, rfl, ho, Nat.le_refl _⟩

/-- A timer on no list has fired. -/
theorem Oneshot.of_unlinked {e' : Nat} (h : c.tells x (Oneshot due e k t))
    (hi : (c.vtimer x).inode = none) : c.tells x (Oneshot due e' k t) := by
  refine ⟨h.callback, h.cyclic, .inr (h.state.resolve_left fun hw => ?_)⟩
  rw [hw.1.inode] at hi
  cases hi

theorem Shape.unlinked_of_nil (hs : Shape c) (h : ∀ b, c.lists b = []) : (c.vtimer x).inode = none := by
  cases hi : (c.vtimer x).inode with
  | none => rfl
  | some b =>
    have hmem := hs.linked.mem_iff.mpr hi
    rw [h b] at hmem
    cases hmem

/-- The first part of a round at `t`, the last one having been at `now`. -/
theorem switchIf_oneshot {now : Nat} (hs : Shape c) (ho : OneshotBut K ∅ c) (hf : c.size ≤ fuel)
    (hnow : now ≤ t) (hpace : t < now + tickMod ∨ ∀ b, c.lists b = [])
    (h : c.tells x (OneshotAt due k now)) :
    ∃ c', switchIf K (toTick t) fuel (decide (toTick t < toTick now)) c = some c' ∧ Shape c' ∧
      OneshotBut K ∅ c' ∧ c'.size ≤ c.size ∧ c'.tells x (Oneshot due (t / tickMod) k t) := by
  have hlater : c.tells x (Oneshot due (now / tickMod) k t) := Oneshot.later h.1 hnow
  by_cases hw : toTick t < toTick now
  · have hgt : now / tickMod < t / tickMod := by
      simp only [toTick, tickMod] at *
      omega
    -- the epoch before that of `t`
    obtain ⟨e, he⟩ := Nat.exists_eq_add_one.mpr (Nat.zero_lt_of_lt hgt)
    have hstory : c.tells x (Oneshot due e k t) := by
      rcases hpace with hlt | hnil
      · have hone := (toTick_lt_iff_wrapped hnow hlt).mp hw
        have : e = now / tickMod := by omega
        rw [this]
        exact hlater
      · exact Oneshot.of_unlinked hlater (hs.unlinked_of_nil hnil)
    have hdue : due / tickMod = e → due ≤ t := by
      intro hd
      simp only [tickMod] at *
      omega
    obtain ⟨c', he', hs', ho', hle, hJ⟩ := switchTimerList_oneshot hs ho hf
      hstory hdue
    refine ⟨c', ?_, hs', ho', hle, by rw [he]; exact hJ⟩
    rw [switchIf, if_pos (by simpa using hw), he']
  · refine ⟨c, ?_, hs, ho, Nat.le_refl _, ?_⟩
    · rw [switchIf, if_neg (by simpa using hw)]
    · rcases hpace with hlt | hnil
      · have hsame : t / tickMod = now / tickMod :=
          (div_eq_or_wrapped hnow hlt).resolve_right fun hc => hw ((toTick_lt_iff_wrapped hnow hlt).mpr hc)
        rw [hsame]
        exact hlater
      · exact Oneshot.of_unlinked hlater (hs.unlinked_of_nil hnil)

/-! ## rounds of the worker -/

theorem handleCancel_size_le : (handleCancel x c).size ≤ c.size := by
  unfold handleCancel
  split
  · exact listDelete_size_le
  · exact Nat.le_refl _

theorem handleAdd_size_le (param : StartParam) : (handleAdd K N param c).size ≤ c.size + 1 := by
  have hadd : ∀ d : VtimerContext, (addVtimerToList N param.tmr d).size = d.size + 1 := fun d =>
    addListWithPrio_size _
  have hexec : ∀ d : VtimerContext, (execTimerCallback K param.tmr d).size = d.size := fun d =>
    (execTimerCallback_sameLists _).size
  unfold handleAdd
  dsimp only
  split
  · split
    · rw [hadd]
      exact Nat.add_le_add_right (hexec _).le 1
    · rw [hexec]
      exact Nat.le_succ _
  · rw [hadd]
    exact Nat.le_refl _

theorem handleCommand_size_le (cmd : Option Command) : (handleCommand K N cmd c).size ≤ c.size + 1 := by
  unfold handleCommand
  split
  · exact (handleAdd_size_le _).trans (Nat.add_le_add_right handleCancel_size_le 1)
  · exact handleCancel_size_le.trans (Nat.le_succ _)
  · exact handleCancel_size_le.trans (Nat.le_succ _)
  · exact Nat.le_succ _
  · exact Nat.le_succ _

/-- The request starts no cyclic timer. -/
def Round.oneshot (r : Round) : Bool :=
  match r.request with
  | some (.start _ _ _ _ cyclic _) => !cyclic
  | _ => true

/-- The arguments are of their types, and a start was stamped less than a
counter range ago. -/
def Round.valid (r : Round) : Bool :=
  match r.request with
  | some (.start _ _ _ timeout _ stamp) =>
    decide (timeout < tickMod ∧ stamp ≤ r.time ∧ r.time < stamp + tickMod)
  | _ => true

/-- The timer the request of the round is about. -/
def Round.timer? (r : Round) : Option TmrId := r.request.bind Request.timer?

variable {r : Round} {w w' : Worker}

theorem OneshotBut.handleCommand (h : OneshotBut K X c)
    (hr : r.oneshot = true ∨ ∃ y ∈ X, r.timer? = some y) : OneshotBut K X (handleCommand K N r.command c) := by
  unfold Round.command Round.oneshot Round.timer? at *
  cases hq : r.request with
  | none => exact h
  | some q =>
    rw [hq] at hr
    cases q with
    | start timer callback arg timeout cyclic stamp =>
      refine h.handleCancel.handleAdd fun hne => ?_
      rcases hr with hr | ⟨y, hy, heq⟩
      · simpa using hr
      · cases heq
        exact (hne hy).elim
    | cancel timer => exact h.handleCancel
    | destroy timer => exact h.handleCancel
    | work fn arg => exact h

theorem apart_handleCommand (h : r.timer? ≠ some x) (hu : Unmodified K x c) :
    Apart x c (handleCommand K N r.command c) := by
  unfold Round.command Round.timer? at *
  cases hq : r.request with
  | none => exact .refl x c
  | some q =>
    rw [hq] at h
    cases q with
    | start timer callback arg timeout cyclic stamp =>
      have hne : timer ≠ x := fun he => h (by rw [he]; rfl)
      have hcancel := apart_handleCancel (c := c) hne
      exact hcancel.trans (apart_handleAdd hne (hcancel.unmodified hu))
    | cancel timer => exact apart_handleCancel fun he => h (by rw [he]; rfl)
    | destroy timer => exact apart_handleCancel fun he => h (by rw [he]; rfl)
    | work fn arg => exact .refl x c

/-- A round without its first part. -/
theorem workerRound_eq {cmd : Option Command} {c₀ c₁ : VtimerContext}
    (h₀ : switchIf K N fuel (decide (N < w.pjiff)) w.tctx = some c₀)
    (h₁ : handleTimeLoop K N fuel (handleCommand K N cmd c₀) = some c₁) :
    workerRound K N fuel cmd w = some { tctx := c₁, pjiff := N, tout := nextWait N c₁ } := by
  rw [workerRound, h₀, Option.bind_some, handleTime, switchIf, if_neg Bool.false_ne_true,
    Option.bind_some, h₁]
  rfl

/-- The parts of a round that came to its end. -/
theorem workerRound_some {cmd : Option Command} (h : workerRound K N fuel cmd w = some w') :
    ∃ c₀, switchIf K N fuel (decide (N < w.pjiff)) w.tctx = some c₀ ∧
      handleTimeLoop K N fuel (handleCommand K N cmd c₀) = some w'.tctx ∧ w'.pjiff = N := by
  obtain ⟨c₀, h₀, h⟩ := Option.bind_eq_some_iff.mp h
  obtain ⟨q, hq, rfl⟩ := Option.map_eq_some_iff.mp h
  obtain ⟨c₁, h₁, rfl⟩ := Option.map_eq_some_iff.mp hq
  exact ⟨c₀, h₀, h₁, rfl⟩

/-- What every round of a system of one-shot timers keeps. -/
structure Steady (K : Callbacks) (now n : Nat) (w : Worker) : Prop where
  shape : Shape w.tctx
  oneshot : OneshotBut K ∅ w.tctx
  pjiff : w.pjiff = toTick now
  size : w.tctx.size ≤ n

/-- What a command finds, and what it leaves, in such a round. -/
theorem Steady.switch {now n : Nat} (h : Steady K now n w) (hr : r.oneshot = true) (hf : n + 1 < fuel) :
    ∃ c₀, switchIf K (toTick r.time) fuel (decide (toTick r.time < w.pjiff)) w.tctx = some c₀ ∧
      Shape (handleCommand K (toTick r.time) r.command c₀) ∧
      OneshotBut K ∅ (handleCommand K (toTick r.time) r.command c₀) ∧
      (handleCommand K (toTick r.time) r.command c₀).size ≤ n + 1 := by
  obtain ⟨c₀, he₀, ho₀, hle₀⟩ := switchIf_plain h.shape h.oneshot
    (fun _ y _ => Set.notMem_empty y) (h.size.trans (show n ≤ fuel by omega))
  have hsize := handleCommand_size_le (K := K) (N := toTick r.time) (c := c₀) r.command
  have hn := h.size
  exact ⟨c₀, he₀, (h.shape.switchIf he₀).handleCommand r.command, ho₀.handleCommand (.inl hr), by omega⟩

theorem workerRound_steady {now n : Nat} (h : Steady K now n w) (hr : r.oneshot = true) (hf : n + 1 < fuel) :
    ∃ w', workerRound K (toTick r.time) fuel r.command w = some w' ∧ Steady K r.time (n + 1) w' := by
  obtain ⟨c₀, he₀, hs₁, ho₁, hle⟩ := h.switch (K := K) hr hf
  obtain ⟨c₁, he₁, ho₂, hle₁⟩ := handleTimeLoop_returns fuel hs₁ ho₁
    (settled_empty (toTick r.time) _) (by omega)
  exact ⟨_, workerRound_eq he₀ he₁, hs₁.handleTimeLoop fuel he₁, ho₂, rfl, hle₁.trans hle⟩

/-- A round whose request is not about `x`. -/
theorem workerRound_oneshot {now m : Nat} (h : Steady K now m w) (hr : r.oneshot = true) (hf : m + 1 < fuel)
    (hnow : now ≤ r.time) (hpace : r.time < now + tickMod ∨ ∀ b, w.tctx.lists b = [])
    (hx : r.timer? ≠ some x) (hJ : w.tctx.tells x (OneshotAt due k now)) :
    ∃ w', workerRound K (toTick r.time) fuel r.command w = some w' ∧
      w'.tctx.tells x (OneshotAt due k r.time) := by
  have hfuel : w.tctx.size ≤ fuel := h.size.trans (by omega)
  obtain ⟨c₀, he₀, hs₀, ho₀, hle₀, hJ₀⟩ := switchIf_oneshot h.shape h.oneshot hfuel hnow hpace hJ
  rw [← h.pjiff] at he₀
  have hsize := handleCommand_size_le (K := K) (N := toTick r.time) (c := c₀) r.command
  have hm := h.size
  have hlt : (handleCommand K (toTick r.time) r.command c₀).size < fuel := by omega
  obtain ⟨c₁, he₁, hJ₁⟩ := handleTimeLoop_oneshot (hs₀.handleCommand r.command)
    (ho₀.handleCommand (.inl hr)) hlt
    ((apart_handleCommand hx (ho₀.unmodified x)).tells hJ₀)
  exact ⟨_, workerRound_eq he₀ he₁, hJ₁⟩

/-- What a start makes of a timer. -/
theorem handleCommand_start {f arg T s : Nat} (hT : T < tickMod) (hs : s ≤ t) (ht : t < s + tickMod) :
    (handleCommand K (toTick t) (some (Request.start x (some f) arg T false s).command) c).tells x
      (Oneshot (s + T) (t / tickMod) (c.calls x) t) := by
  have hi := handleCancel_inode (c := c) (x := x)
  simp only [handleCommand, Request.command, handleAdd, tickSub_toTick hs ht]
  generalize hd : (handleCancel x c).withTimer x _ = d
  have hv : d.vtimer x = { (handleCancel x c).vtimer x with
      jiffies := toTick s, timeout := T, callback := some f, arg := arg, cyclic := false
      isActive := true } := by
    rw [← hd]
    simp [withTimer]
  have hcalls : d.calls x = c.calls x := by
    rw [← hd]
    exact handleCancel_calls
  split
  · rename_i hlate
    have hexec := execTimerCallback_oneshot (K := K) (by rw [hv])
    rw [if_neg (by rw [hexec, hv]; exact Bool.false_ne_true)]
    refine ⟨⟨f, ?_⟩, ?_, .inr ⟨?_, ?_, ?_, by omega⟩⟩
    · rw [hexec, hv]
    · rw [hexec, hv]
    · rw [hexec, hv]
      exact hi
    · rw [hexec]
    · rw [execTimerCallback_calls (by rw [hv]), hcalls]
  · have hplaced : Placed (s + T) (t / tickMod) _ _ := placed_addVtimerToList
      (by rw [hv]; exact toTick_add s T) (by omega) (by omega)
    have hself := addVtimerToList_self (N := toTick t) (x := x) (c := d)
    refine ⟨⟨f, ?_⟩, ?_, .inl ⟨hplaced, ?_, hcalls⟩⟩
    · rw [hself, hv]
    · rw [hself, hv]
    · rw [hself, hv]

/-- The round that reads the start of `x`; `c₀` is what the command finds. -/
theorem workerRound_start {now m f arg T s : Nat} (h : Steady K now m w) (hf : m + 1 < fuel)
    (hr : r.request = some (.start x (some f) arg T false s)) (hv : r.valid = true) :
    ∃ c₀ w', switchIf K (toTick r.time) fuel (decide (toTick r.time < w.pjiff)) w.tctx = some c₀ ∧
      workerRound K (toTick r.time) fuel r.command w = some w' ∧
        w'.tctx.tells x (OneshotAt (s + T) (c₀.calls x) r.time) := by
  obtain ⟨hT, hs, ht⟩ : T < tickMod ∧ s ≤ r.time ∧ r.time < s + tickMod := by
    simpa [Round.valid, hr] using hv
  have hone : r.oneshot = true := by simp [Round.oneshot, hr]
  obtain ⟨c₀, he₀, hs₁, ho₁, hle⟩ := h.switch (K := K) hone hf
  have hJ : (handleCommand K (toTick r.time) r.command c₀).tells x
      (Oneshot (s + T) (r.time / tickMod) (c₀.calls x) r.time) := by
    rw [Round.command, hr]
    exact handleCommand_start hT hs ht
  obtain ⟨c₁, he₁, hJ₁⟩ := handleTimeLoop_oneshot hs₁ ho₁ (hle.trans_lt hf) hJ
  exact ⟨c₀, _, he₀, workerRound_eq he₀ he₁, hJ₁⟩

end

/-! ## one-shot timers over a whole run -/

/-- The time of the last round. -/
def endTime (now : Nat) : List Round → Nat
  | [] => now
  | r :: rs => endTime r.time rs

/-- Time does not go back, and less than a counter range passes between two
rounds unless both lists are empty. -/
def Paced (K : Callbacks) (fuel : Nat) : Nat → List Round → Worker → Prop
  | _, [], _ => True
  | now, r :: rs, w =>
    now ≤ r.time ∧ (r.time < now + tickMod ∨ ∀ b, w.tctx.lists b = []) ∧
      ∀ w', workerRound K (toTick r.time) fuel r.command w = some w' → Paced K fuel r.time rs w'

theorem runRounds_append {l₁ l₂ : List Round} {w : Worker} :
    runRounds K fuel (l₁ ++ l₂) w = (runRounds K fuel l₁ w).bind (runRounds K fuel l₂) := by
  induction l₁ generalizing w with
  | nil => rfl
  | cons r rs ih =>
    simp only [List.cons_append, runRounds, Option.bind_assoc]
    congr 1
    funext w'
    exact ih

theorem Paced.suffix {l₁ l₂ : List Round} {now : Nat} {w w' : Worker}
    (h : Paced K fuel now (l₁ ++ l₂) w) (hw : runRounds K fuel l₁ w = some w') :
    Paced K fuel (endTime now l₁) l₂ w' := by
  induction l₁ generalizing now w with
  | nil =>
    cases hw
    exact h
  | cons r rs ih =>
    obtain ⟨w₁, h₁, hw⟩ := Option.bind_eq_some_iff.mp hw
    exact ih (h.2.2 w₁ h₁) hw

theorem runRounds_steady {l : List Round} {now m : Nat} {w : Worker} (h : Steady K now m w)
    (hr : ∀ r ∈ l, r.oneshot = true) (hf : m + l.length < fuel) :
    ∃ w', runRounds K fuel l w = some w' ∧ Steady K (endTime now l) (m + l.length) w' := by
  induction l generalizing now m w with
  | nil => exact ⟨w, rfl, h⟩
  | cons r rs ih =>
    rw [List.length_cons] at hf
    obtain ⟨w₁, h₁, hs₁⟩ := workerRound_steady h (hr r List.mem_cons_self)
      (show m + 1 < fuel by omega)
    obtain ⟨w', h', hs'⟩ := ih hs₁ (fun q hq => hr q (List.mem_cons_of_mem r hq)) (by omega)
    refine ⟨w', ?_, ?_⟩
    · rw [runRounds, h₁]
      exact h'
    · rw [List.length_cons, show m + (rs.length + 1) = m + 1 + rs.length by omega]
      exact hs'

theorem runRounds_oneshot {l : List Round} {now m due k : Nat} {w w' : Worker} (h : Steady K now m w)
    (hr : ∀ r ∈ l, r.oneshot = true) (hf : m + l.length < fuel) (hp : Paced K fuel now l w)
    (hx : ∀ r ∈ l, r.timer? ≠ some x) (hJ : w.tctx.tells x (OneshotAt due k now))
    (hw : runRounds K fuel l w = some w') : w'.tctx.tells x (OneshotAt due k (endTime now l)) := by
  induction l generalizing now m w with
  | nil =>
    cases hw
    exact hJ
  | cons r rs ih =>
    rw [List.length_cons] at hf
    have hone := hr r List.mem_cons_self
    have hlt : m + 1 < fuel := by omega
    obtain ⟨w₁, h₁, hJ₁⟩ := workerRound_oneshot (K := K) h hone hlt hp.1 hp.2.1
      (hx r List.mem_cons_self) hJ
    obtain ⟨w₂, h₂, hs₂⟩ := workerRound_steady h hone hlt
    obtain ⟨w₃, h₃, hw⟩ := Option.bind_eq_some_iff.mp hw
    have h₁₂ : w₁ = w₂ := Option.some.inj (h₁.symm.trans h₂)
    have h₁₃ : w₁ = w₃ := Option.some.inj (h₁.symm.trans h₃)
    subst h₁₂ h₁₃
    exact ih hs₂ (fun q hq => hr q (List.mem_cons_of_mem r hq)) (by omega) (hp.2.2 w₁ h₁)
      (fun q hq => hx q (List.mem_cons_of_mem r hq)) hJ₁ hw

theorem steady_init : Steady K 0 0 Worker.init :=
  ⟨.init, ⟨fun _ _ => rfl, fun _ hy => (Set.notMem_empty _ hy).elim⟩,
    rfl, Nat.le_refl _⟩

/-- What the story says about the number of calls and about `is_active`. -/
theorem OneshotAt.result {due k t : Nat} (h : c.tells x (OneshotAt due k t)) :
    c.calls x = k + (if due ≤ t then 1 else 0) ∧ (c.vtimer x).isActive = decide (t < due) := by
  obtain ⟨hJ, hlt⟩ := h
  obtain hw | hd := hJ.state
  · have ht : t < due := hlt (by rw [hw.1.inode]; exact Option.some_ne_none _)
    rw [if_neg (by omega)]
    exact ⟨hw.2.2, hw.2.1.trans (by simpa using ht)⟩
  · rw [if_pos hd.2.2.2]
    refine ⟨hd.2.2.1, hd.2.1.trans ?_⟩
    simpa using hd.2.2.2

/-- **One-shot timers**: in a run without cyclic timers in which every start is
read less than a counter range after its stamp, the worker always comes to the
end of its round with both lists sorted, and a timer started at `s` for `T`
ticks fires once, in the first round at or after `s + T`, unless a later
request is about it.  `c₀` is what the command of the start finds. -/
theorem oneshot_fires_once (K : Callbacks) (fuel : Nat) (rounds : List Round)
    (hone : ∀ q ∈ rounds, q.oneshot = true) (hvalid : ∀ q ∈ rounds, q.valid = true)
    (hpaced : Paced K fuel 0 rounds Worker.init)
    (hfuel : rounds.length < fuel) :
    ∃ w, runRounds K fuel rounds Worker.init = some w ∧
      (∀ b, (w.tctx.lists b).Pairwise fun y z => (w.tctx.vtimer y).jiffies ≤ (w.tctx.vtimer z).jiffies) ∧
      ∀ before r after x f arg T s, rounds = before ++ r :: after →
        r.request = some (.start x (some f) arg T false s) → (∀ q ∈ after, q.timer? ≠ some x) →
        ∃ w₀ c₀, runRounds K fuel before Worker.init = some w₀ ∧
          switchIf K (toTick r.time) fuel (decide (toTick r.time < w₀.pjiff)) w₀.tctx = some c₀ ∧
          w.tctx.calls x = c₀.calls x + (if s + T ≤ endTime r.time after then 1 else 0) ∧
          (w.tctx.vtimer x).isActive = decide (endTime r.time after < s + T) := by
  obtain ⟨w, hw, hs⟩ := runRounds_steady steady_init hone (by simpa using hfuel)
  refine ⟨w, hw, hs.shape.sorted, ?_⟩
  intro before r after x f arg T s hsplit hr hx
  subst hsplit
  rw [List.length_append, List.length_cons] at hfuel
  simp only [List.mem_append, List.mem_cons] at hone hvalid
  obtain ⟨w₀, hw₀, hs₀⟩ := runRounds_steady steady_init (fun q hq => hone q (.inl hq))
    (show 0 + before.length < fuel by omega)
  rw [Nat.zero_add] at hs₀
  have hp₀ := hpaced.suffix hw₀
  have hlt : before.length + 1 < fuel := by omega
  obtain ⟨c₀, w₁, hc₀, hw₁, hJ₁⟩ := workerRound_start (K := K) hs₀ hlt hr (hvalid r (.inr (.inl rfl)))
  obtain ⟨w₂, hw₂, hs₂⟩ := workerRound_steady hs₀ (hone r (.inr (.inl rfl))) hlt
  have h₁₂ : w₁ = w₂ := Option.some.inj (hw₁.symm.trans hw₂)
  subst h₁₂
  have hend : runRounds K fuel after w₁ = some w := by
    rw [runRounds_append, hw₀, Option.bind_some, runRounds, hw₁] at hw
    exact hw
  have hJ := runRounds_oneshot hs₂ (fun q hq => hone q (.inr (.inr hq))) (by omega) (hp₀.2.2 w₁ hw₁) hx
    hJ₁ hend
  exact ⟨w₀, c₀, hw₀, hc₀, OneshotAt.result hJ⟩

/-- A timer for five ticks is started two ticks before the counter wraps. -/
theorem oneshot_fires_once_after_wrap : ∃ w, runRounds (fun _ => []) 4
    [⟨4294967294, some (.start 0 (some 0) 0 5 false 4294967294)⟩, ⟨4294967298, none⟩, ⟨4294967300, none⟩]
      Worker.init = some w ∧ w.tctx.calls 0 = 1 ∧ (w.tctx.vtimer 0).isActive = false := by
  obtain ⟨w, hw, -, h⟩ := oneshot_fires_once (fun _ => []) 4
    [⟨4294967294, some (.start 0 (some 0) 0 5 false 4294967294)⟩, ⟨4294967298, none⟩,
      ⟨4294967300, none⟩] (by decide) (by decide)
    ⟨by decide, .inl (by decide), fun _ _ => ⟨by decide, .inl (by decide), fun _ _ =>
      ⟨by decide, .inl (by decide), fun _ _ => trivial⟩⟩⟩ (by decide)
  obtain ⟨w₀, c₀, hw₀, hc₀, hcalls, hactive⟩ := h [] _ _ 0 0 0 5 4294967294 rfl rfl (by decide)
  cases hw₀
  cases hc₀
  exact ⟨w, hw, hcalls, hactive⟩

/-- A start for ten ticks that is read more than a counter range after its
stamp does not fire, although its deadline is long over. -/
theorem start_read_late : ∃ w, runRounds (fun _ => []) 2
    [⟨4294967301, some (.start 0 (some 0) 0 10 false 0)⟩] Worker.init = some w ∧
      0 + 10 ≤ 4294967301 ∧ w.tctx.calls 0 = 0 := by
  refine ⟨_, rfl, by decide, ?_⟩
  decide

end Isix.Softtimers
