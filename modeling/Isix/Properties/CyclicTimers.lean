import Isix.Properties.OneshotTimers

/-!
# Isix.Properties.CyclicTimers

Cyclic timers fire once per period until the period that reaches over the wrap
of the tick counter.  Up to there `cyclic_reschedule_after_fire` compares tick
values of one epoch (`Fits`), and the number of calls is the number of periods
that have passed.  Over the wrap it takes a deadline that is ahead for one that
has passed.
-/

namespace Isix.Softtimers

open Function (update)
open VtimerContext Intrusive

variable {K : Callbacks} {N fuel : Nat} {c c' : VtimerContext} {x y : TmrId}

/-! ## cyclic timers -/

section

variable {s P e k t : Nat}

/-- The story of a cyclic timer started at `s` with the period `P`: it has
fired `i` times and waits for the next multiple of the period. -/
structure Cyclic (s P e k t i : Nat) (v : Vtimer) (m : Nat) (p : Bool) : Prop where
  callback : ∃ f, v.callback = some f
  cyclic : v.cyclic = true
  timeout : v.timeout = P
  placed : Placed (s + (i + 1) * P) e v p
  calls : m = k + i
  past : s + i * P ≤ t

/-- After `handle_time` at `t` the timer waits for a deadline later than `t`. -/
def CyclicAt (s P k t : Nat) : Story := fun v m p =>
  ∃ i, Cyclic s P (t / tickMod) k t i v m p ∧ t < s + (i + 1) * P

/-- The deadline of the timer that follows `t` lies in the epoch of its first
deadline. -/
def Fits (s P t : Nat) : Prop := (s + ((t - s) / P + 1) * P) / tickMod = (s + P) / tickMod

theorem le_of_past {i : Nat} (hP : 0 < P) (h : s + i * P ≤ t) : i ≤ (t - s) / P := by
  rw [Nat.le_div_iff_mul_le hP]
  omega

theorem lt_next (hP : 0 < P) (hs : s ≤ t) : t < s + ((t - s) / P + 1) * P := by
  have := Nat.lt_mul_div_succ (t - s) hP
  rw [Nat.mul_comm] at this
  omega

/-- All deadlines up to the first one after `t` are in one epoch. -/
theorem Fits.epoch {i : Nat} (hP : 0 < P) (h : Fits s P t) (hi : s + i * P ≤ t) :
    (s + (i + 1) * P) / tickMod = (s + P) / tickMod := by
  have hle : (i + 1) * P ≤ ((t - s) / P + 1) * P :=
    Nat.mul_le_mul_right P (Nat.succ_le_succ (le_of_past hP hi))
  have hge : P ≤ (i + 1) * P := Nat.le_mul_of_pos_left P (Nat.succ_pos i)
  apply Nat.le_antisymm
  · rw [← h]
    exact Nat.div_le_div_right (by omega)
  · exact Nat.div_le_div_right (by omega)

theorem Fits.mono {t' : Nat} (hP : 0 < P) (h : Fits s P t') (hs : s ≤ t) (ht : t ≤ t') : Fits s P t := by
  have hle : (t - s) / P * P ≤ t - s := Nat.div_mul_le_self _ _
  exact h.epoch hP (by omega)

/-- The first deadline is not in an epoch that is over. -/
theorem Fits.le_epoch (hP : 0 < P) (h : Fits s P t) (hs : s ≤ t) :
    t / tickMod ≤ (s + P) / tickMod := by
  rw [← h]
  exact Nat.div_le_div_right (lt_next hP hs).le

/-- The catch-up loop calls the callback for every deadline up to `t` and puts
the timer on the list of the next one. -/
theorem cyclicLoop_spec (hP : 0 < P) (hPm : P < tickMod)
    (hfit : Fits s P t) (he : t / tickMod = (s + P) / tickMod) :
    ∀ (fuel i : Nat) {c c' : VtimerContext}, Spared K x c → (∃ f, (c.vtimer x).callback = some f) →
      (c.vtimer x).cyclic = true → (c.vtimer x).timeout = P → c.calls x = k + i → s + i * P ≤ t →
      cyclicLoop K (toTick t) x fuel (toTick (s + (i + 1) * P)) c = some c' →
      c'.tells x (CyclicAt s P k t) := by
  intro fuel
  induction fuel with
  | zero =>
    intro i c c' _ _ _ _ _ _ hc
    cases hc
  | succ fuel ih =>
    intro i c c' hsp hf hcyc hto hcalls hpast hc
    have hep : (s + (i + 1) * P) / tickMod = t / tickMod := (hfit.epoch hP hpast).trans he.symm
    rw [cyclicLoop] at hc
    split at hc
    · rename_i hle
      have hexec := execTimerCallback_cyclic hcyc (.inl hsp)
      obtain ⟨f, hf⟩ := hf
      dsimp only at hc
      rw [hexec, if_neg (by simp [hcyc]), if_neg (not_not.mpr rfl), hto, toTick_add, Nat.add_assoc,
        ← Nat.succ_mul] at hc
      refine ih (i + 1) (hsp.mono execTimerCallback_grows) ⟨f, by rw [hexec]; exact hf⟩
        (by rw [hexec]; exact hcyc) (by rw [hexec]; exact hto) ?_
        ((toTick_le_iff hep).mp hle) hc
      rw [execTimerCallback_calls hf, hcalls]
      rfl
    · rename_i hgt
      cases hc
      have hlt : t < s + (i + 1) * P := by
        rw [toTick_le_iff hep] at hgt
        omega
      have hself := addVtimerToList_self (N := toTick t) (x := x)
        (c := c.withTimer x fun v => { v with jiffies := tickSub (toTick (s + (i + 1) * P)) v.timeout })
      have hplaced : Placed (s + (i + 1) * P) (t / tickMod) _ _ := placed_addVtimerToList (x := x)
        (c := c.withTimer x fun v => { v with jiffies := tickSub (toTick (s + (i + 1) * P)) v.timeout })
        (by simpa [withTimer] using tickSub_add _ _) hlt.le (by rw [Nat.add_mul]; omega)
      refine ⟨i, ⟨?_, ?_, ?_, hplaced, hcalls, hpast⟩, hlt⟩
      · rw [hself]
        simpa [withTimer] using hf
      · rw [hself]
        simpa [withTimer] using hcyc
      · rw [hself]
        simpa [withTimer] using hto

/-- A cyclic timer fires in the loop of `handle_time`. -/
theorem Cyclic.fire {i : Nat} (hP : 0 < P) (hPm : P < tickMod)
    (hfit : Fits s P t) (hsp : Spared K x c) (h : c.tells x (Cyclic s P (t / tickMod) k t i))
    (hp : (c.vtimer x).inode = some c.pVtimerList) (hj : (c.vtimer x).jiffies ≤ toTick t)
    (hr : rescheduleIfCyclic K (toTick t) fuel x ((execTimerCallback K x c).listDelete x) = some c') :
    c'.tells x (CyclicAt s P k t) := by
  have hdue := h.placed.due_le hp hj
  have hep := h.placed.epoch_of_current hp
  obtain ⟨f, hf⟩ := h.callback
  have hv : ((execTimerCallback K x c).listDelete x).vtimer x = { c.vtimer x with inode := none } := by
    rw [listDelete_self, execTimerCallback_cyclic h.cyclic (.inl hsp)]
  unfold rescheduleIfCyclic cyclicRescheduleAfterFire at hr
  rw [hv, if_pos h.cyclic, if_neg (by rw [h.timeout]; omega), h.timeout, h.placed.jiffies, toTick_add,
    Nat.add_assoc, ← Nat.succ_mul] at hr
  refine cyclicLoop_spec hP hPm hfit (hep.symm.trans (hfit.epoch hP h.past)) fuel (i + 1) (hsp.mono ?_)
    ⟨f, ?_⟩ ?_ ?_ ?_ hdue hr
  · rw [listDelete_invoked]
    exact execTimerCallback_grows
  · rw [hv]
    exact hf
  · rw [hv]
    exact h.cyclic
  · rw [hv]
    exact h.timeout
  · rw [VtimerContext.calls, listDelete_invoked]
    exact (execTimerCallback_calls hf).trans (by rw [h.calls]; rfl)

theorem handleTimeLoop_cyclic (hP : 0 < P) (hPm : P < tickMod)
    (hfit : Fits s P t) (hs : Shape c) (hsp : Spared K x c)
    (h : c.tells x fun v m p => ∃ i, Cyclic s P (t / tickMod) k t i v m p)
    (he : handleTimeLoop K (toTick t) fuel c = some c') : c'.tells x (CyclicAt s P k t) ∧ Spared K x c' := by
  have spared : ∀ {c i}, Unmodified K x c → c.tells x (Cyclic s P (t / tickMod) k t i) → Spared K x c :=
    fun hu hc => hu.resolve_right (by rw [hc.cyclic]; nofun)
  obtain ⟨⟨i, hJ⟩, hu, hrest⟩ := handleTimeLoop_spec
    (fun fuel c c' hu hc hp hj hr => by
      obtain ⟨i, hc⟩ := hc
      have hsp := spared hu hc
      obtain ⟨j, hc', -⟩ := Cyclic.fire hP hPm hfit hsp hc hp hj hr
      refine ⟨⟨j, hc'⟩, .inl (Spared.rescheduleIfCyclic (hsp.mono ?_) hr)⟩
      rw [listDelete_invoked]
      exact execTimerCallback_grows) fuel he hs h (.inl hsp)
  exact ⟨⟨i, hJ, hJ.placed.lt_due (hrest x)⟩, spared hu hJ⟩

/-- The change of the epoch does not touch a timer that fits. -/
theorem switchIf_cyclic {now : Nat} (hP : 0 < P) (hfit : Fits s P t)
    (hs : Shape c) (hsp : Spared K x c) (hsn : s ≤ now) (hnow : now ≤ t) (hpace : t < now + tickMod)
    (h : c.tells x (CyclicAt s P k now))
    (he : switchIf K (toTick t) fuel (decide (toTick t < toTick now)) c = some c') :
    (c'.tells x fun v m p => ∃ i, Cyclic s P (t / tickMod) k t i v m p) ∧ Spared K x c' := by
  obtain ⟨i, hc, hlt⟩ := h
  have hlater : c.tells x (Cyclic s P (now / tickMod) k t i) :=
    { hc with past := hc.past.trans hnow }
  by_cases hw : toTick t < toTick now
  · have hep := (toTick_lt_iff_wrapped hnow hpace).mp hw
    have hnot : (c.vtimer x).inode ≠ some c.pVtimerList := by
      intro hp
      have h₁ := hc.placed.epoch_of_current hp
      have h₂ := (hfit.mono hP hsn hnow).epoch hP hc.past
      have h₃ := hfit.le_epoch hP (hsn.trans hnow)
      omega
    rw [switchIf, if_pos (by simpa using hw)] at he
    obtain ⟨d, hd, rfl⟩ := Option.map_eq_some_iff.mp he
    have hhead : (c.lists c.pVtimerList).head? ≠ some x := fun hh =>
      hnot (hs.linked.mem_iff.mp (List.mem_of_mem_head? hh))
    obtain ⟨-, hap⟩ := switchLoop_apart fuel hd hs (.inl hsp) hnot hhead
    have hd' := hap.tells hlater
    refine ⟨⟨i, hd'.callback, hd'.cyclic, hd'.timeout, ?_, hd'.calls, hd'.past⟩, hsp.mono hap.grows⟩
    rw [hep]
    exact hd'.placed.swap (by rw [hap.vtimer, hap.list]; exact hnot)
  · have hep : t / tickMod = now / tickMod :=
      (div_eq_or_wrapped hnow hpace).resolve_right fun hh => hw ((toTick_lt_iff_wrapped hnow hpace).mpr hh)
    rw [switchIf, if_neg (by simpa using hw)] at he
    cases he
    rw [hep]
    exact ⟨⟨i, hlater⟩, hsp⟩

/-- What a start makes of a cyclic timer when it is read before the first
deadline. -/
theorem handleCommand_start_cyclic {f arg : Nat} (hPm : P < tickMod) (hs : s ≤ t) (ht : t < s + P) :
    ((handleCommand K (toTick t) (some (Request.start x (some f) arg P true s).command) c).tells x
      fun v m p => ∃ i, Cyclic s P (t / tickMod) (c.calls x) t i v m p) ∧
    (handleCommand K (toTick t) (some (Request.start x (some f) arg P true s).command) c).invoked = c.invoked := by
  simp only [handleCommand, Request.command, handleAdd, tickSub_toTick hs (by omega : t < s + tickMod)]
  generalize hd : (handleCancel x c).withTimer x _ = d
  have hv : d.vtimer x = { (handleCancel x c).vtimer x with
      jiffies := toTick s, timeout := P, callback := some f, arg := arg, cyclic := true
      isActive := true } := by
    rw [← hd]
    simp [withTimer]
  have hcalls : d.calls x = c.calls x := by
    rw [← hd]
    exact handleCancel_calls
  rw [if_neg (by omega)]
  have hplaced : Placed (s + (0 + 1) * P) (t / tickMod) _ _ := placed_addVtimerToList
    (by rw [hv, Nat.zero_add, Nat.one_mul]; exact toTick_add s P) (by omega) (by omega)
  have hself := addVtimerToList_self (N := toTick t) (x := x) (c := d)
  refine ⟨⟨0, ⟨f, ?_⟩, ?_, ?_, hplaced, hcalls, by omega⟩, ?_⟩
  · rw [hself, hv]
  · rw [hself, hv]
  · rw [hself, hv]
  · rw [← hd]
    exact handleCancel_invoked

/-- The story gives the number of calls. -/
theorem CyclicAt.calls (hP : 0 < P) (h : c.tells x (CyclicAt s P k t)) : c.calls x = k + (t - s) / P := by
  obtain ⟨i, hc, hlt⟩ := h
  have hle := le_of_past hP hc.past
  have hge : (t - s) / P < i + 1 := by
    rw [Nat.div_lt_iff_lt_mul hP]
    have := hc.past
    omega
  rw [show (t - s) / P = i by omega]
  exact hc.calls

/-- Times do not go back and are less than a counter range apart. -/
def Timely : Nat → List Round → Prop
  | _, [] => True
  | now, r :: rs => now ≤ r.time ∧ r.time < now + tickMod ∧ Timely r.time rs

variable {l : List Round}

theorem Timely.le_endTime {now : Nat} (h : Timely now l) : now ≤ endTime now l := by
  induction l generalizing now with
  | nil => exact Nat.le_refl _
  | cons r rs ih => exact h.1.trans (ih h.2.2)

variable {r : Round} {w w' : Worker}

/-- The worker while the cyclic timer `x` runs. -/
structure Going (K : Callbacks) (x : TmrId) (s P k now : Nat) (w : Worker) : Prop where
  shape : Shape w.tctx
  spared : Spared K x w.tctx
  pjiff : w.pjiff = toTick now
  cyclic : w.tctx.tells x (CyclicAt s P k now)

theorem workerRound_cyclic {now : Nat} (hP : 0 < P) (hPm : P < tickMod) (hfit : Fits s P r.time)
    (h : Going K x s P k now w) (hsn : s ≤ now) (hnow : now ≤ r.time) (hpace : r.time < now + tickMod)
    (hx : r.timer? ≠ some x) (hw : workerRound K (toTick r.time) fuel r.command w = some w') :
    Going K x s P k r.time w' := by
  obtain ⟨c₀, h₀, h₁, hpj⟩ := workerRound_some hw
  have hs₁ := (h.shape.switchIf h₀).handleCommand (K := K) (N := toTick r.time) r.command
  rw [h.pjiff] at h₀
  obtain ⟨hJ₀, hsp₀⟩ := switchIf_cyclic hP hfit h.shape h.spared hsn hnow hpace h.cyclic h₀
  have hap := apart_handleCommand (N := toTick r.time) hx (.inl hsp₀)
  obtain ⟨hJ, hsp⟩ := handleTimeLoop_cyclic hP hPm hfit hs₁ (hsp₀.mono hap.grows) (hap.tells hJ₀) h₁
  exact ⟨hs₁.handleTimeLoop fuel h₁, hsp, hpj, hJ⟩

theorem runRounds_cyclic {now : Nat} (hP : 0 < P) (hPm : P < tickMod) (hfit : Fits s P (endTime now l))
    (h : Going K x s P k now w) (hsn : s ≤ now) (hpace : Timely now l) (hx : ∀ q ∈ l, q.timer? ≠ some x)
    (hw : runRounds K fuel l w = some w') : Going K x s P k (endTime now l) w' := by
  induction l generalizing now w with
  | nil =>
    cases hw
    exact h
  | cons r rs ih =>
    obtain ⟨hnow, hgap, hrest⟩ := hpace
    obtain ⟨w₁, hw₁, hw⟩ := Option.bind_eq_some_iff.mp hw
    have hfit₁ : Fits s P r.time := hfit.mono hP (hsn.trans hnow) hrest.le_endTime
    have h₁ := workerRound_cyclic hP hPm hfit₁ h hsn hnow hgap (hx r List.mem_cons_self) hw₁
    exact ih hfit h₁ (hsn.trans hnow) hrest (fun q hq => hx q (List.mem_cons_of_mem r hq)) hw

theorem Shape.workerRound {cmd : Option Command} (hs : Shape w.tctx)
    (h : Softtimers.workerRound K N fuel cmd w = some w') : Shape w'.tctx := by
  obtain ⟨c₀, h₀, h₁, -⟩ := workerRound_some h
  exact ((hs.switchIf h₀).handleCommand cmd).handleTimeLoop fuel h₁

theorem Shape.runRounds (hs : Shape w.tctx) (h : Softtimers.runRounds K fuel l w = some w') :
    Shape w'.tctx := by
  induction l generalizing w with
  | nil =>
    cases h
    exact hs
  | cons r rs ih =>
    obtain ⟨w₁, h₁, h⟩ := Option.bind_eq_some_iff.mp h
    exact ih (hs.workerRound h₁) h

/-! ## the worker comes to the end of its rounds -/

theorem cyclicLoop_returns (hP : 0 < P) (hfit : Fits s P t)
    (he : t / tickMod = (s + P) / tickMod) :
    ∀ (fuel i : Nat) {c : VtimerContext}, (c.vtimer x).cyclic = true → (c.vtimer x).timeout = P →
      s + i * P ≤ t → (t - s) / P < i + fuel → OneshotBut K {x} c →
      ∃ c', cyclicLoop K (toTick t) x fuel (toTick (s + (i + 1) * P)) c = some c' ∧ OneshotBut K {x} c' ∧
        c'.size = c.size + 1 := by
  intro fuel
  induction fuel with
  | zero =>
    intro i c _ _ hpast hf _
    have := le_of_past hP hpast
    omega
  | succ fuel ih =>
    intro i c hcyc hto hpast hf ho
    have hep : (s + (i + 1) * P) / tickMod = t / tickMod := (hfit.epoch hP hpast).trans he.symm
    rw [cyclicLoop]
    split
    · rename_i hle
      have hexec := execTimerCallback_cyclic hcyc (ho.unmodified x)
      dsimp only
      rw [hexec, if_neg (by simp [hcyc]), if_neg (not_not.mpr rfl), hto, toTick_add, Nat.add_assoc,
        ← Nat.succ_mul]
      obtain ⟨c', hc', ho', hsize⟩ := ih (i + 1) (by rw [hexec]; exact hcyc)
        (by rw [hexec]; exact hto) ((toTick_le_iff hep).mp hle) (by omega) ho.execTimerCallback
      exact ⟨c', hc', ho', hsize.trans (by rw [(execTimerCallback_sameLists x).size])⟩
    · refine ⟨_, rfl, ?_, addListWithPrio_size _⟩
      exact (ho.withTimer fun hx => (hx rfl).elim).addVtimerToList

/-- A deadline later than `t` is not due. -/
theorem CyclicAt.settled (h : c.tells x (CyclicAt s P k t)) : Settled {x} (toTick t) c := by
  rintro y rfl hp
  obtain ⟨i, hc, hlt⟩ := h
  rw [hc.placed.jiffies]
  exact (toTick_lt_iff (hc.placed.epoch_of_current hp).symm).mpr hlt

theorem handleTimeLoop_returns_cyclic {R : Nat} (hR : 2 * tickMod ≤ R) (hP : 0 < P)
    (hPm : P < tickMod) (hfit : Fits s P t) : ∀ (fuel : Nat) {c : VtimerContext}, Shape c → OneshotBut K {x} c →
      (c.tells x fun v m p => ∃ i, Cyclic s P (t / tickMod) k t i v m p) →
      c.size + R < fuel →
      ∃ c', handleTimeLoop K (toTick t) fuel c = some c' ∧ OneshotBut K {x} c' ∧ c'.size ≤ c.size := by
  intro fuel
  induction fuel with
  | zero =>
    intro c _ _ _ hf
    exact (Nat.not_lt_zero _ hf).elim
  | succ fuel ih =>
    intro c hs ho hJ hf
    rw [handleTimeLoop]
    cases hl : c.lists c.pVtimerList with
    | nil => exact ⟨c, rfl, ho, Nat.le_refl _⟩
    | cons y ys =>
      dsimp only
      split
      · rename_i hdue
        have hi := hs.head_inode hl
        have hsame := execTimerCallback_sameLists (K := K) (c := c) y
        have hsize := listDelete_size (hsame.shape hs) ((hsame.inode y).trans hi)
        rw [hsame.size] at hsize
        have hs' : Shape ((execTimerCallback K y c).listDelete y) := (hsame.shape hs).listDelete
        have ho' : OneshotBut K {x} ((execTimerCallback K y c).listDelete y) := ho.execTimerCallback.listDelete
        by_cases hy : y = x
        · subst hy
          obtain ⟨i, hc⟩ := hJ
          have hv : ((execTimerCallback K y c).listDelete y).vtimer y =
              { c.vtimer y with inode := none } := by
            rw [listDelete_self, execTimerCallback_cyclic hc.cyclic (ho.unmodified y)]
          have hep := (hc.placed.epoch_of_current hi).symm.trans (hfit.epoch hP hc.past)
          have hroom : (t - s) / P < i + 1 + fuel := by
            refine Nat.lt_of_le_of_lt (Nat.div_le_self _ _) ?_
            simp only [tickMod] at *
            omega
          obtain ⟨d, hd, hod, hsd⟩ := cyclicLoop_returns hP hfit hep fuel (i + 1)
            (by rw [hv]; exact hc.cyclic) (by rw [hv]; exact hc.timeout)
            (hc.placed.due_le hi hdue) hroom ho'
          have hr : rescheduleIfCyclic K (toTick t) fuel y ((execTimerCallback K y c).listDelete y) =
              some d := by
            unfold rescheduleIfCyclic cyclicRescheduleAfterFire
            rw [hv, if_pos hc.cyclic, if_neg (by rw [hc.timeout]; omega), hc.timeout, hc.placed.jiffies,
              toTick_add, Nat.add_assoc, ← Nat.succ_mul]
            exact hd
          have hJd := Cyclic.fire hP hPm hfit (ho.spared y rfl) hc hi hdue hr
          rw [hr, Option.bind_some]
          obtain ⟨c', he, hoc', hle⟩ := handleTimeLoop_returns fuel
            (hs'.rescheduleIfCyclic listDelete_inode hr) hod (CyclicAt.settled hJd) (by omega)
          exact ⟨c', he, hoc', by omega⟩
        · rw [rescheduleIfCyclic_oneshot (ho'.oneshot y hy), Option.bind_some]
          have hap := (apart_execTimerCallback hy (ho.unmodified x)).trans (apart_listDelete hy)
          obtain ⟨c', he, hoc', hle⟩ := ih hs' ho' (hap.tells hJ) (by omega)
          exact ⟨c', he, hoc', by omega⟩
      · exact ⟨c, rfl, ho, Nat.le_refl _⟩

/-- What every round keeps when `x` is the only cyclic timer. -/
structure SteadyBut (K : Callbacks) (x : TmrId) (s P k now m : Nat) (w : Worker) : Prop extends
    Going K x s P k now w where
  oneshot : OneshotBut K {x} w.tctx
  size : w.tctx.size ≤ m

theorem workerRound_steadyBut {now m R : Nat} (hR : 2 * tickMod ≤ R) (hP : 0 < P) (hPm : P < tickMod)
    (hfit : Fits s P r.time) (h : SteadyBut K x s P k now m w) (hsn : s ≤ now) (hnow : now ≤ r.time)
    (hpace : r.time < now + tickMod) (hx : r.timer? ≠ some x) (hr : r.oneshot = true)
    (hf : m + 1 + R < fuel) :
    ∃ w', workerRound K (toTick r.time) fuel r.command w = some w' ∧
      SteadyBut K x s P k r.time (m + 1) w' := by
  have hfuel : w.tctx.size ≤ fuel := h.size.trans (by omega)
  have hnot : decide (toTick r.time < w.pjiff) = true →
      ∀ y ∈ w.tctx.lists w.tctx.pVtimerList, y ∉ ({x} : Set TmrId) := by
    rintro hw y hy rfl
    -- a timer that fits is not on the list of an epoch that is over
    rw [h.pjiff, decide_eq_true_iff, toTick_lt_iff_wrapped hnow hpace] at hw
    obtain ⟨i, hc, -⟩ := h.cyclic
    have h₁ := hc.placed.epoch_of_current (h.shape.linked.mem_iff.mp hy)
    have h₂ := (hfit.mono hP hsn hnow).epoch hP hc.past
    have h₃ := hfit.le_epoch hP (hsn.trans hnow)
    omega
  obtain ⟨c₀, he₀, ho₀, hle₀⟩ := switchIf_plain h.shape h.oneshot hnot hfuel
  have hs₀ := h.shape.switchIf he₀
  have hJ₀ : (handleCommand K (toTick r.time) r.command c₀).tells x
      fun v m p => ∃ i, Cyclic s P (r.time / tickMod) k r.time i v m p := by
    refine (apart_handleCommand hx (ho₀.unmodified x)).tells ?_
    rw [h.pjiff] at he₀
    exact (switchIf_cyclic hP hfit h.shape h.spared hsn hnow hpace h.cyclic he₀).1
  have ho₁ := ho₀.handleCommand (N := toTick r.time) (.inl hr)
  have hsize := handleCommand_size_le (K := K) (N := toTick r.time) (c := c₀) r.command
  have hm := h.size
  obtain ⟨c₁, he₁, ho₂, hle₁⟩ := handleTimeLoop_returns_cyclic hR hP hPm hfit fuel
    (hs₀.handleCommand r.command) ho₁ hJ₀ (by omega)
  have hround := workerRound_eq he₀ he₁
  exact ⟨_, hround, workerRound_cyclic hP hPm hfit h.toGoing hsn hnow hpace hx hround, ho₂, hle₁.trans (by omega)⟩

theorem runRounds_returns {now m R : Nat} (hR : 2 * tickMod ≤ R) (hP : 0 < P) (hPm : P < tickMod)
    (hfit : Fits s P (endTime now l)) (h : SteadyBut K x s P k now m w) (hsn : s ≤ now)
    (hpace : Timely now l) (hx : ∀ q ∈ l, q.timer? ≠ some x) (hr : ∀ q ∈ l, q.oneshot = true)
    (hf : m + l.length + R < fuel) : ∃ w', runRounds K fuel l w = some w' := by
  induction l generalizing now m w with
  | nil => exact ⟨w, rfl⟩
  | cons r rs ih =>
    rw [List.length_cons] at hf
    obtain ⟨hnow, hgap, hrest⟩ := hpace
    have hfit₁ : Fits s P r.time := hfit.mono hP (hsn.trans hnow) hrest.le_endTime
    obtain ⟨w₁, hw₁, hs₁⟩ := workerRound_steadyBut hR hP hPm hfit₁ h hsn hnow hgap
      (hx r List.mem_cons_self) (hr r List.mem_cons_self) (show m + 1 + R < fuel by omega)
    obtain ⟨w', hw'⟩ := ih hfit hs₁ (hsn.trans hnow) hrest (fun q hq => hx q (List.mem_cons_of_mem r hq))
      (fun q hq => hr q (List.mem_cons_of_mem r hq)) (by omega)
    exact ⟨w', by rw [runRounds, hw₁]; exact hw'⟩

/-- The round that reads the start of the cyclic timer `x`. -/
theorem workerRound_start_cyclic {f arg : Nat} {c₀ : VtimerContext} (hsp : Spared K x c₀)
    (hP : 0 < P) (hPm : P < tickMod) (hfit : Fits s P r.time) (hsh : Shape w.tctx)
    (hr : r.request = some (.start x (some f) arg P true s)) (hs : s ≤ r.time) (ht : r.time < s + P)
    (h₀ : switchIf K (toTick r.time) fuel (decide (toTick r.time < w.pjiff)) w.tctx = some c₀)
    (h : workerRound K (toTick r.time) fuel r.command w = some w') :
    Going K x s P (c₀.calls x) r.time w' := by
  obtain ⟨c₁, h₁, h₂, hpj⟩ := workerRound_some h
  obtain rfl : c₀ = c₁ := Option.some.inj (h₀.symm.trans h₁)
  have hsh₁ := (hsh.switchIf h₀).handleCommand (K := K) (N := toTick r.time) r.command
  rw [Round.command, hr, Option.map_some] at h₂ hsh₁
  obtain ⟨hJ, hinv⟩ := handleCommand_start_cyclic (K := K) (c := c₀) hPm hs ht
  obtain ⟨hJ', hsp'⟩ := handleTimeLoop_cyclic hP hPm hfit hsh₁ (hsp.mono (by rw [hinv])) hJ h₂
  exact ⟨hsh₁.handleTimeLoop fuel h₂, hsp', hpj, hJ'⟩

theorem workerRound_start_returns {now m R f arg : Nat} (hR : 2 * tickMod ≤ R) (hP : 0 < P) (hPm : P < tickMod)
    (hfit : Fits s P r.time) (h : Steady K now m w)
    (hsp : ∀ c₀, switchIf K (toTick r.time) fuel (decide (toTick r.time < w.pjiff)) w.tctx = some c₀ → Spared K x c₀)
    (hr : r.request = some (.start x (some f) arg P true s)) (hs : s ≤ r.time) (ht : r.time < s + P)
    (hf : m + 1 + R < fuel) :
    ∃ k w', workerRound K (toTick r.time) fuel r.command w = some w' ∧
      SteadyBut K x s P k r.time (m + 1) w' := by
  obtain ⟨c₀, he₀, ho₀, hle₀⟩ := switchIf_plain h.shape h.oneshot (fun _ y _ => Set.notMem_empty y)
    (h.size.trans (show m ≤ fuel by omega))
  have ho₁ : OneshotBut K {x} c₀ := ⟨fun y _ => ho₀.oneshot y (Set.notMem_empty y), fun y hy => hy ▸ hsp c₀ he₀⟩
  have hs₀ := (h.shape.switchIf he₀).handleCommand (K := K) (N := toTick r.time) r.command
  have hJ₀ : (handleCommand K (toTick r.time) r.command c₀).tells x
      fun v m p => ∃ i, Cyclic s P (r.time / tickMod) (c₀.calls x) r.time i v m p := by
    rw [Round.command, hr]
    exact (handleCommand_start_cyclic hPm hs ht).1
  have hsize := handleCommand_size_le (K := K) (N := toTick r.time) (c := c₀) r.command
  have hm := h.size
  obtain ⟨c₁, he₁, ho₂, hle₁⟩ := handleTimeLoop_returns_cyclic hR hP hPm hfit fuel hs₀
    (ho₁.handleCommand (.inr ⟨x, rfl, by simp [Round.timer?, hr, Request.timer?]⟩)) hJ₀ (by omega)
  have hround := workerRound_eq he₀ he₁
  exact ⟨c₀.calls x, _, hround, workerRound_start_cyclic (hsp c₀ he₀) hP hPm hfit h.shape hr hs ht he₀ hround, ho₂,
    hle₁.trans (by omega)⟩

/-- **Cyclic timers**: a cyclic timer started at `s` with the period `P`, read
before its first deadline and never touched again, also not by the callbacks
that are invoked after the start was read, has fired `(t - s) / P` times after a
round at `t`, as long as the deadline that follows `t` is in the same epoch of
the tick counter as the first one.  When the other timers are one-shot the
worker comes to the end of every round. -/
theorem cyclic_fires_on_time (K : Callbacks) (fuel : Nat) (before after : List Round) (r : Round)
    (x f arg P s : Nat)
    (hmod : ∀ w₀ c₀, runRounds K fuel before Worker.init = some w₀ →
      switchIf K (toTick r.time) fuel (decide (toTick r.time < w₀.pjiff)) w₀.tctx = some c₀ →
      ∀ m, c₀.invoked.length ≤ m → ∀ a ∈ K m, a.1 ≠ x)
    (hr : r.request = some (.start x (some f) arg P true s)) (hP : 0 < P) (hPm : P < tickMod)
    (hs : s ≤ r.time) (ht : r.time < s + P) (hx : ∀ q ∈ after, q.timer? ≠ some x)
    (hpace : Timely r.time after) (hfit : Fits s P (endTime r.time after)) :
    (∀ w₀ c₀ w, runRounds K fuel before Worker.init = some w₀ →
      switchIf K (toTick r.time) fuel (decide (toTick r.time < w₀.pjiff)) w₀.tctx = some c₀ →
      runRounds K fuel (r :: after) w₀ = some w →
      w.tctx.calls x = c₀.calls x + (endTime r.time after - s) / P) ∧
    ((∀ q ∈ before ++ after, q.oneshot = true) →
      before.length + 1 + after.length + 2 * tickMod < fuel →
      ∃ w, runRounds K fuel (before ++ r :: after) Worker.init = some w) := by
  have hfit₁ : Fits s P r.time := hfit.mono hP hs hpace.le_endTime
  constructor
  · intro w₀ c₀ w hw₀ hc₀ hw
    obtain ⟨w₁, hw₁, hw⟩ := Option.bind_eq_some_iff.mp hw
    have hsh : Shape w₀.tctx := Shape.init.runRounds hw₀
    have h₁ := workerRound_start_cyclic (hmod w₀ c₀ hw₀ hc₀) hP hPm hfit₁ hsh hr hs ht hc₀ hw₁
    exact CyclicAt.calls hP (runRounds_cyclic hP hPm hfit h₁ hs hpace hx hw).cyclic
  · intro hone hfuel
    simp only [List.mem_append] at hone
    obtain ⟨w₀, hw₀, hs₀⟩ := runRounds_steady steady_init (fun q hq => hone q (.inl hq))
      (show 0 + before.length < fuel by omega)
    rw [Nat.zero_add] at hs₀
    obtain ⟨k, w₁, hw₁, hs₁⟩ := workerRound_start_returns (Nat.le_refl _) hP hPm hfit₁ hs₀ (hmod w₀ · hw₀) hr hs ht
      (show before.length + 1 + 2 * tickMod < fuel by omega)
    obtain ⟨w, hw⟩ := runRounds_returns (Nat.le_refl _) hP hPm hfit hs₁ hs hpace hx
      (fun q hq => hone q (.inr hq)) hfuel
    refine ⟨w, ?_⟩
    rw [runRounds_append, hw₀, Option.bind_some, runRounds, hw₁]
    exact hw

end

/-- A period of ten ticks that begins before the wrap and is used only after
it; three periods pass between two rounds. -/
theorem cyclic_fires_on_time_after_wrap : ∃ w, runRounds (fun _ => []) 9
    [⟨4294967290, some (.start 0 (some 0) 0 10 true 4294967290)⟩, ⟨4294967300, none⟩, ⟨4294967335, none⟩]
      Worker.init = some w ∧ w.tctx.calls 0 = 4 := by
  have h := (cyclic_fires_on_time (fun _ => []) 9 [] [⟨4294967300, none⟩, ⟨4294967335, none⟩]
    ⟨4294967290, some (.start 0 (some 0) 0 10 true 4294967290)⟩ 0 0 0 10 4294967290 (by simp) rfl
    (by decide) (by decide) (by decide) (by decide) (by decide)
    ⟨by decide, by decide, by decide, by decide, trivial⟩ rfl).1
  obtain ⟨w, hw⟩ : ∃ w, runRounds (fun _ => []) 9
      [⟨4294967290, some (.start 0 (some 0) 0 10 true 4294967290)⟩, ⟨4294967300, none⟩, ⟨4294967335, none⟩]
      Worker.init = some w := ⟨_, rfl⟩
  exact ⟨w, hw, h _ _ w rfl rfl hw⟩

/-- The deadline after the round at `3221225472` is behind the wrap: the loop
takes its tick value for a deadline that has passed, and again the next one,
and the callback is called four times instead of two. -/
theorem cyclic_deadline_behind_wrap : ∃ w, runRounds (fun _ => []) 9
    [⟨0, some (.start 0 (some 0) 0 1610612736 true 0)⟩, ⟨1610612736, none⟩, ⟨3221225472, none⟩]
      Worker.init = some w ∧ w.tctx.calls 0 = 4 ∧ (3221225472 - 0) / 1610612736 = 2 := by
  refine ⟨_, rfl, ?_, by decide⟩
  decide

end Isix.Softtimers
