import Isix.Refine.System
import Isix.SchedLock

/-!
# Isix.Properties.SchedLock

The scheduler lock over every interleaving of its steps: no tick is lost, and
no context switch.
-/

namespace Isix.SchedLock

open Kernel Outcome Runs

/-! ## what the tick leaves alone -/

/-- The members of `csys` the lock works with. -/
structure Control where
  schedLock : AtomicSem
  jiffies : Nat
  jiffiesSkipped : Int
  yieldPending : Bool
  pendsv : Bool
  currp : TaskId
  schrun : Bool

def control (s : Kernel) : Control :=
  { s with }

section

variable {s : Kernel} {t : TaskId}

/-- `m` returns a state with the control members of `s`, if it returns. -/
abbrev Keeps (m : Res) (s : Kernel) : Prop := Holds (fun _ => True) m fun s' => control s' = control s

theorem keeps_listDelete : Keeps (s.listDelete t) s := by
  unfold Kernel.listDelete
  cases hi : s.inode t with
  | none => trivial
  | some h => cases h <;> rfl

theorem keeps_timeDelete : Keeps (s.timeDelete t) s := by
  unfold Kernel.timeDelete
  cases hi : (s.task t).inodeTime with
  | none => trivial
  | some b => rfl

theorem keeps_semFastSignal : Keeps (semFastSignal t s) s := by
  unfold semFastSignal
  cases ho : (s.task t).obj with
  | sem x => rfl
  | _ => trivial

theorem Keeps.trans {m : Res} {f : Kernel → Res} (h : Keeps m s) (hf : ∀ s', Keeps (f s') s') :
    Keeps (m >>= f) s :=
  h.bind fun s' hs' => (hf s').mono fun _ h' => h'.trans hs'

variable [Config]

theorem keeps_addReadyList : Keeps (addReadyList t s) s := by
  unfold addReadyList
  dsimp only
  split
  · trivial
  · split
    · trivial
    · split
      · trivial
      · rfl

theorem keeps_expireTask : Keeps (expireTask t s) s := by
  refine keeps_timeDelete.trans fun s₁ => ?_
  split
  · exact keeps_listDelete.trans fun s₂ => keeps_semFastSignal.trans fun s₃ => keeps_addReadyList
  · exact keeps_listDelete.trans fun s₂ => keeps_addReadyList
  · exact keeps_listDelete.trans fun s₂ => keeps_addReadyList
  · exact keeps_addReadyList

theorem keeps_expireLoop {now : Nat} (l : List TaskId) : Keeps (expireLoop now l s) s := by
  induction l generalizing s with
  | nil => rfl
  | cons t rest ih =>
    rw [expireLoop]
    split
    · exact keeps_expireTask.trans fun s₁ => ih
    · rfl

theorem keeps_expireIfRunning {now : Nat} : Keeps (expireIfRunning now s) s := by
  unfold expireIfRunning
  split
  · exact keeps_expireLoop _
  · rfl

/-- `m` returns a state that differs from `s` in the time only, which is `n`. -/
abbrev Sets (m : Res) (n : Nat) (s : Kernel) : Prop :=
  Holds (fun _ => True) m fun s' => control s' = { control s with jiffies := n }

theorem reachWrap_sets {toWrap : Nat} (hw : toWrap = tickMod - s.jiffies) (hj : s.jiffies < tickMod) :
    Sets (reachWrap toWrap s) (tickMod - 1) s := by
  unfold reachWrap
  split
  · have hn : toTick (s.jiffies + (toWrap - 1)) = tickMod - 1 := by
      unfold toTick
      rw [Nat.mod_eq_of_lt] <;> omega
    rw [hn]
    exact keeps_expireIfRunning
  · have hn : s.jiffies = tickMod - 1 := by omega
    rw [← hn]
    rfl

theorem passWrap_sets (hj : s.jiffies = tickMod - 1) : Sets (passWrap s) 0 s := by
  unfold passWrap
  have hn : toTick (s.jiffies + 1) = 0 := by rw [hj]; rfl
  rw [hn]
  dsimp only
  split
  · exact keeps_expireLoop (s := { s with jiffies := 0, pWaitList := !s.pWaitList }) _
  · rfl

theorem crossWrap_sets {toWrap : Nat} (hw : toWrap = tickMod - s.jiffies) (hj : s.jiffies < tickMod) :
    Sets (crossWrap toWrap s) 0 s := by
  refine (reachWrap_sets hw hj).bind fun s₁ h₁ => ?_
  have hj₁ : s₁.jiffies = tickMod - 1 := congrArg Control.jiffies h₁
  refine (passWrap_sets hj₁).mono fun s₂ h₂ => ?_
  rw [h₂, h₁]

/-- **The time advances by the ticks**: `advance_jiffies` touches no other
member the lock works with, whatever timeouts it expires. -/
theorem advanceLoop_sets (fuel n : Nat) (hn : n ≤ fuel) (hj : s.jiffies < tickMod) :
    Sets (advanceLoop fuel n s) (toTick (s.jiffies + n)) s := by
  induction fuel generalizing s n with
  | zero =>
    have h₀ : toTick (s.jiffies + n) = s.jiffies := by
      rw [Nat.le_zero.mp hn]
      exact Nat.mod_eq_of_lt hj
    rw [h₀]
    rfl
  | succ fuel ih =>
    rw [advanceLoop]
    split
    · rename_i h₀
      rw [h₀, Nat.add_zero, toTick, Nat.mod_eq_of_lt hj]
      rfl
    · rename_i hpos
      have hw : timeMaxTick - s.jiffies + 1 = tickMod - s.jiffies := by
        simp only [timeMaxTick, tickMod] at hj ⊢
        omega
      rw [hw]
      dsimp only
      split
      · exact keeps_expireIfRunning
      · rename_i hge
        refine (crossWrap_sets rfl hj).bind fun s₁ h₁ => ?_
        have hj₁ : s₁.jiffies = 0 := congrArg Control.jiffies h₁
        have hlt : s₁.jiffies < tickMod := by rw [hj₁]; exact Nat.zero_lt_succ _
        refine (ih (n - (tickMod - s.jiffies)) (by omega) hlt).mono fun s₂ h₂ => ?_
        -- the ticks behind the wrap are those of the sum
        have hsum : toTick (s₁.jiffies + (n - (tickMod - s.jiffies))) = toTick (s.jiffies + n) := by
          have he : s.jiffies + n = tickMod + (n - (tickMod - s.jiffies)) := by omega
          rw [hj₁, he, toTick, toTick, Nat.add_mod_left, Nat.zero_add]
        rw [h₂, h₁, hsum]

theorem advanceJiffies_sets (n : Nat) (hj : s.jiffies < tickMod) :
    Sets (advanceJiffies n s) (toTick (s.jiffies + n)) s :=
  advanceLoop_sets n n (Nat.le_refl n) hj

end

theorem control_yieldIfPending (k : Kernel) : control (yieldIfPending k) =
    { control k with pendsv := k.pendsv || k.yieldPending, yieldPending := false } := by
  unfold yieldIfPending
  split
  · rename_i hp
    simp [control, hp]
  · rename_i hp
    simp [control, Bool.eq_false_iff.mpr hp]

variable {k : Kernel}

theorem keeps_requeueCurrent : Keeps (requeueCurrent k) k := by
  unfold requeueCurrent
  split
  · split
    · trivial
    · exact keeps_listDelete.trans fun _ => rfl
  · rfl

theorem selectFirst_sets : Holds (fun _ => True) (selectFirst k) fun k' =>
    control k' = { control k with currp := k'.currp } := by
  unfold selectFirst
  split
  · trivial
  · split
    · trivial
    · split
      · trivial
      · split
        · trivial
        · rfl

/-- A context switch changes the current task and the ready queue only. -/
theorem isixpSchedule_sets (hk : k.schedLock.value = 0) :
    Holds (fun _ => True) (isixpSchedule k) fun k' =>
      control k' = { control k with currp := k'.currp } := by
  unfold isixpSchedule
  rw [if_neg (not_not.mpr hk)]
  exact keeps_requeueCurrent.bind fun k₁ h₁ => selectFirst_sets.mono fun k' h' => by rw [h', h₁]

/-- The actions of the lock and of the context switch are all allowed here. -/
abbrev anyAct : Act → Core → Prop := fun _ _ => True

theorem quiet_anyAct : Quiet anyAct := fun _ _ _ => trivial

section

variable [Config] {room : State → Nat → Prop}

/-- The lock is free, nothing was put off, and the timer has announced the
ticks `jiffies` counts. -/
structure Free (k : Kernel) : Prop where
  inv : Inv k
  running : k.schrun = true
  unlocked : k.schedLock.value = 0
  notSkipped : k.jiffiesSkipped = 0
  notPending : k.yieldPending = false
  jiffies : k.jiffies < tickMod

/-! ## the invariant -/

structure Sound (s : State) : Prop where
  good : Good s.kernel
  lock : s.kernel.schedLock.LockRange
  running : s.kernel.schrun = true
  jiffies : s.kernel.jiffies = toTick s.used
  /-- no announced tick is lost and none is used twice -/
  ticks : (s.used : Int) + s.kernel.jiffiesSkipped = s.announced
  skipped : 0 ≤ s.kernel.jiffiesSkipped ∧ s.kernel.jiffiesSkipped < 2147483648
  free : s.locks = 0 → s.unlocking = 0 →
    s.kernel.jiffiesSkipped = 0 ∧ s.kernel.yieldPending = false

theorem Free.sound (h : Free k) : Sound (start k) where
  good := h.inv.good
  lock := h.inv.lock
  running := h.running
  jiffies := (Nat.mod_eq_of_lt h.jiffies).symm
  ticks := by simp [start, h.notSkipped]
  skipped := by simp [start, h.notSkipped]
  free _ _ := ⟨h.notSkipped, h.notPending⟩

/-- What one step does: the invariant holds again, a locked scheduler does not
switch, and a switch that was put off is forgotten only by an unlock that
requests it. -/
structure Moves (e : Step) (s s' : State) : Prop where
  sound : Sound s'
  current : 0 < s.locks → s'.kernel.currp = s.kernel.currp
  pending : s.kernel.yieldPending = true →
    s'.kernel.yieldPending = true ∨ (e = .drain ∧ s'.kernel.pendsv = true)

variable {s : State}

section

variable (h : Sound s)

include h

theorem lock_moves (hlt : s.locks < 2147483647) :
    Moves .lock s { s with kernel := isixpLockScheduler s.kernel
                           interval := if s.locks = 0 then 0 else s.interval } := by
  have hl := h.lock.inc hlt
  have hpos : s.kernel.schedLock.inc.value ≠ 0 := by
    obtain ⟨h₀, h₁, hlim⟩ := h.lock
    simp only [State.locks] at hlt
    simp only [AtomicSem.inc, hlim]
    rw [if_neg (by omega), toInt32_of_range (by omega) (by omega)]
    omega
  have hd : Does anyAct s.kernel (isixpLockScheduler s.kernel) := Does.lock h.good trivial hl
  exact
    { sound := ⟨hd.ok, hl, h.running, h.jiffies, h.ticks, h.skipped, fun h₀ => absurd h₀ hpos⟩
      current := fun _ => rfl
      pending := Or.inl }

theorem decrement_moves (hpos : 0 < s.locks) :
    Holds (fun _ => False) (decrement s) (Moves .decrement s) := by
  have hl := h.lock.dec hpos
  have hd : Does anyAct s.kernel { s.kernel with schedLock := s.kernel.schedLock.dec } :=
    Does.lock h.good trivial hl
  have h₀ := hl.1
  unfold decrement
  dsimp only
  rw [if_neg (by omega)]
  split
  · exact
      { sound := ⟨hd.ok, hl, h.running, h.jiffies, h.ticks, h.skipped, fun _ hu => by cases hu⟩
        current := fun _ => rfl
        pending := Or.inl }
  · rename_i hne
    exact
      { sound := ⟨hd.ok, hl, h.running, h.jiffies, h.ticks, h.skipped, fun hz => absurd hz hne⟩
        current := fun _ => rfl
        pending := Or.inl }

theorem Sound.jiffies_lt : s.kernel.jiffies < tickMod := by
  rw [h.jiffies]
  exact Nat.mod_lt _ (Nat.zero_lt_succ _)

/-- The ticks an unlock uses. -/
theorem advanceSkipped_sets :
    Holds (fun _ => False) (advanceSkipped s.kernel) fun k => Good k ∧
      control k = { control s.kernel with
        jiffies := toTick (s.used + s.kernel.jiffiesSkipped.toNat), jiffiesSkipped := 0 } := by
  have hgood : Holds (fun _ => False) (advanceSkipped s.kernel) Good :=
    (advanceSkipped_does quiet_anyAct h.good).mono fun _ hd => hd.ok
  refine hgood.and ?_
  unfold advanceSkipped
  dsimp only
  split
  · have hset := advanceJiffies_sets (s := { s.kernel with jiffiesSkipped := 0 })
      s.kernel.jiffiesSkipped.toNat h.jiffies_lt
    refine hset.mono fun k hk => ?_
    rw [hk]
    have hmod : toTick (s.kernel.jiffies + s.kernel.jiffiesSkipped.toNat) =
        toTick (s.used + s.kernel.jiffiesSkipped.toNat) := by
      rw [h.jiffies, toTick, toTick, toTick, Nat.mod_add_mod]
    rw [hmod]
    rfl
  · rename_i hn
    have hz : s.kernel.jiffiesSkipped.toNat = 0 := by omega
    rw [hz, Nat.add_zero, ← h.jiffies]
    rfl

theorem drain_moves : Holds (fun _ => False) (drain s) (Moves .drain s) := by
  refine (advanceSkipped_sets h).bind fun k hk => ?_
  obtain ⟨hgood, hk⟩ := hk
  have hd := yieldIfPending_does quiet_anyAct hgood
  have hc := control_yieldIfPending k
  rw [hk] at hc
  have hskip : (yieldIfPending k).jiffiesSkipped = 0 := congrArg Control.jiffiesSkipped hc
  have hlock : (yieldIfPending k).schedLock = s.kernel.schedLock := congrArg Control.schedLock hc
  have hpend : k.yieldPending = s.kernel.yieldPending := congrArg Control.yieldPending hk
  refine ⟨⟨hd.ok, hlock ▸ h.lock, (congrArg Control.schrun hc).trans h.running,
    congrArg Control.jiffies hc, ?_, ?_, fun _ _ => ⟨hskip, congrArg Control.yieldPending hc⟩⟩,
    fun _ => congrArg Control.currp hc, fun hp => .inr ⟨rfl, ?_⟩⟩
  · have ht := h.ticks
    have hs := h.skipped
    simp only [hskip]
    omega
  · simp only [hskip]
    decide
  · have hv : (yieldIfPending k).pendsv = (k.pendsv || k.yieldPending) := congrArg Control.pendsv hc
    exact hv.trans (by rw [hpend, hp, Bool.or_true])

/-- Ticks that arrive, from the timer interrupt or after a tickless sleep. -/
theorem accountTicks_sets {n : Nat} (hn : s.locks ≠ 0 → DrainRoom s n) :
    Holds (fun _ => False) (accountTicks n s.kernel) fun k => Good k ∧
      control k = if s.locks ≠ 0
        then { control s.kernel with jiffiesSkipped := s.kernel.jiffiesSkipped + n }
        else { control s.kernel with jiffies := toTick (s.used + n) } := by
  have hgood : Holds (fun _ => False) (accountTicks n s.kernel) Good :=
    (accountTicks_does quiet_anyAct h.good).mono fun _ hd => hd.ok
  refine hgood.and ?_
  unfold accountTicks
  by_cases hl : s.locks ≠ 0
  · rw [if_pos hl]
    simp only [if_pos hl]
    have hroom := hn hl
    have hs := h.skipped
    unfold DrainRoom at hroom
    have hsum : toInt32 (s.kernel.jiffiesSkipped + toInt32 n) = s.kernel.jiffiesSkipped + n := by
      rw [toInt32_of_range (v := (n : Int)) (by omega) (by omega),
        toInt32_of_range (by omega) (by omega)]
    rw [hsum]
    rfl
  · rw [if_neg hl]
    simp only [if_neg hl]
    have hmod : toTick (s.kernel.jiffies + n) = toTick (s.used + n) := by
      rw [h.jiffies, toTick, toTick, toTick, Nat.mod_add_mod]
    exact hmod ▸ advanceJiffies_sets n h.jiffies_lt

theorem count_moves {n : Nat} {e : Step} (hn : s.locks ≠ 0 → DrainRoom s n)
    (hgood : Good k)
    (hc : control k = if s.locks ≠ 0
        then { control s.kernel with jiffiesSkipped := s.kernel.jiffiesSkipped + n }
        else { control s.kernel with jiffies := toTick (s.used + n) }) :
    Moves e s (s.count n k) := by
  have ht := h.ticks
  have hs := h.skipped
  by_cases hl : s.locks ≠ 0
  · rw [if_pos hl] at hc
    have hroom := hn hl
    unfold DrainRoom at hroom
    have hlock : k.schedLock = s.kernel.schedLock := congrArg Control.schedLock hc
    have hskip : k.jiffiesSkipped = s.kernel.jiffiesSkipped + n := congrArg Control.jiffiesSkipped hc
    have hj : k.jiffies = s.kernel.jiffies := congrArg Control.jiffies hc
    refine ⟨⟨hgood, hlock ▸ h.lock, (congrArg Control.schrun hc).trans h.running, ?_, ?_, ?_,
      fun hz => absurd ((congrArg AtomicSem.value hlock).symm.trans hz) hl⟩, fun _ => congrArg Control.currp hc,
      fun hp => .inl ((congrArg Control.yieldPending hc).trans hp)⟩
    · simp only [State.count, if_pos hl]
      exact hj.trans h.jiffies
    · simp only [State.count, if_pos hl, hskip]
      omega
    · simp only [State.count, hskip]
      omega
  · rw [if_neg hl] at hc
    have hlock : k.schedLock = s.kernel.schedLock := congrArg Control.schedLock hc
    have hskip : k.jiffiesSkipped = s.kernel.jiffiesSkipped := congrArg Control.jiffiesSkipped hc
    have hpend : k.yieldPending = s.kernel.yieldPending := congrArg Control.yieldPending hc
    refine ⟨⟨hgood, hlock ▸ h.lock, (congrArg Control.schrun hc).trans h.running, ?_, ?_, ?_,
      fun _ hu => ?_⟩, fun _ => congrArg Control.currp hc, fun hp => .inl (hpend.trans hp)⟩
    · simp only [State.count, if_neg hl]
      exact congrArg Control.jiffies hc
    · simp only [State.count, if_neg hl, hskip]
      omega
    · simp only [State.count, hskip]
      omega
    · simp only [State.count, hskip, hpend]
      exact h.free (not_not.mp hl) hu

theorem catchUpMissedTicks_sets {n : Nat} (hn : s.locks ≠ 0 → DrainRoom s n) :
    Holds (fun _ => False) (catchUpMissedTicks n s.kernel) fun k => Good k ∧
      control k = if s.locks ≠ 0
        then { control s.kernel with jiffiesSkipped := s.kernel.jiffiesSkipped + n }
        else { control s.kernel with jiffies := toTick (s.used + n) } := by
  unfold catchUpMissedTicks
  by_cases hz : n = 0
  · rw [if_pos (.inl hz)]
    refine ⟨h.good, ?_⟩
    subst hz
    rw [Nat.add_zero, ← h.jiffies, Int.natCast_zero, Int.add_zero]
    split <;> rfl
  · rw [if_neg (by simp [hz, h.running])]
    exact accountTicks_sets h hn

theorem isixYield_moves : Moves .yield s { s with kernel := isixYield s.kernel } := by
  have hd := isixYield_does quiet_anyAct h.good
  have hy : isixYield s.kernel = { s.kernel with pendsv := true } := if_pos h.running
  rw [hy] at hd ⊢
  exact
    { sound := { h with good := hd.ok }
      current := fun _ => rfl
      pending := Or.inl }

theorem schedule_moves : Holds (fun _ => False)
    (isixpSchedule { s.kernel with pendsv := false }) fun k => Moves .schedule s { s with kernel := k } := by
  have hun : Does anyAct s.kernel { s.kernel with pendsv := false } :=
    .book (a := .unpend) h.good rfl rfl rfl rfl trivial trivial rfl rfl rfl
      (h.good.core.congr rfl rfl rfl rfl rfl rfl rfl rfl rfl rfl rfl fun w he => by cases w <;> exact he)
  have hgood := (isixpSchedule_does (E := fun _ => False) quiet_anyAct (fun _ _ => trivial) hun.ok
    h.running).mono fun _ hd => hd.ok
  by_cases hl : s.locks = 0
  · refine (hgood.and (isixpSchedule_sets hl)).mono fun k hk => ?_
    obtain ⟨hok, hc⟩ := hk
    have hlock : k.schedLock = s.kernel.schedLock := congrArg Control.schedLock hc
    have hskip : k.jiffiesSkipped = s.kernel.jiffiesSkipped := congrArg Control.jiffiesSkipped hc
    have hpend : k.yieldPending = s.kernel.yieldPending := congrArg Control.yieldPending hc
    refine ⟨⟨hok, hlock ▸ h.lock, (congrArg Control.schrun hc).trans h.running,
      (congrArg Control.jiffies hc).trans h.jiffies, hskip ▸ h.ticks, hskip ▸ h.skipped, fun _ hu => ?_⟩,
      fun hpos => absurd hl (by omega), fun hp => .inl (hpend.trans hp)⟩
    simp only [hskip, hpend]
    exact h.free hl hu
  · have he : isixpSchedule { s.kernel with pendsv := false } =
        .ok { s.kernel with pendsv := false, yieldPending := true } := if_pos hl
    rw [he] at hgood ⊢
    exact
      { sound := { h with good := hgood, free := fun hz => absurd hz hl }
        current := fun _ => rfl
        pending := fun _ => .inl rfl }

/-- **Step**: a step that can be taken ends, and does what `Moves` says. -/
theorem exec_moves {e : Step} (he : Enabled DrainRoom s e) :
    Holds (fun _ => False) (exec e s) (Moves e s) := by
  cases e with
  | lock => exact lock_moves h he
  | decrement => exact decrement_moves h he
  | drain => exact drain_moves h
  | announce n => exact (accountTicks_sets h he.2).bind fun _ hk => count_moves h he.2 hk.1 hk.2
  | catchUp n => exact (catchUpMissedTicks_sets h he.2).bind fun _ hk => count_moves h he.2 hk.1 hk.2
  | yield => exact isixYield_moves h
  | schedule => exact (schedule_moves h).bind fun _ hk => hk

/-! ## runs -/

theorem Sound.run {s' : State} (hr : Run (Takes DrainRoom) s s') : Sound s' :=
  hr.keeps (fun _ _ _ hs ht => ((exec_moves hs ht.1).of_ok ht.2).sound) h

/-- A switch that was put off is requested before the lock is free again. -/
theorem pending_requested {s' : State} (hp : s.kernel.yieldPending = true)
    (hr : Run (Takes DrainRoom) s s') : s'.kernel.yieldPending = true ∨
      ∃ u v, Run (Takes DrainRoom) s u ∧ exec .drain u = .ok v ∧ v.kernel.pendsv = true ∧
        Run (Takes DrainRoom) v s' := by
  induction hr with
  | refl => exact .inl hp
  | @step u u' e hr ht ih =>
    cases ih with
    | inl hu =>
      have hm := (exec_moves (h.run hr) ht.1).of_ok ht.2
      cases hm.pending hu with
      | inl hu' => exact .inl hu'
      | inr hd => exact .inr ⟨u, u', hr, hd.1 ▸ ht.2, hd.2, .refl _⟩
    | inr hd =>
      obtain ⟨v, w, hv, hvw, hw, hwu⟩ := hd
      exact .inr ⟨v, w, hv, hvw, hw, hwu.step ht⟩

theorem Sound.total :
    ((s.kernel.jiffies : Int) + s.kernel.jiffiesSkipped) % 4294967296 = s.announced % 4294967296 := by
  have hj := h.jiffies
  have ht := h.ticks
  simp only [toTick, tickMod] at hj
  omega

end

/-- **The scheduler lock loses nothing**: in every state of every interleaving
in which less than 2^31 ticks wait for the next unlock, `jiffies` and the
skipped ticks make up the ticks announced; they have all been used when the
lock is free; a locked scheduler does not switch, and a switch asked for in that
time is requested by the unlock that frees the lock. -/
theorem lock_loses_nothing (hk : Free k) (hr : Run (Takes DrainRoom) (start k) s) :
    ((s.kernel.jiffies : Int) + s.kernel.jiffiesSkipped) % 4294967296 = s.announced % 4294967296 ∧
    (s.locks = 0 → s.unlocking = 0 → s.kernel.jiffiesSkipped = 0 ∧ s.used = s.announced) ∧
    (∀ e, Enabled DrainRoom s e → ∃ s', exec e s = .ok s' ∧
      (0 < s.locks → s'.kernel.currp = s.kernel.currp)) ∧
    (∀ u s', 0 < s.locks → Enabled DrainRoom s .schedule → exec .schedule s = .ok u →
      Run (Takes DrainRoom) u s' → s'.locks = 0 → s'.unlocking = 0 →
      ∃ v w, Run (Takes DrainRoom) u v ∧ exec .drain v = .ok w ∧ w.kernel.pendsv = true ∧
        Run (Takes DrainRoom) w s') := by
  have h : Sound s := hk.sound.run hr
  refine ⟨h.total, fun hl hu => ?_, fun e he => ?_, fun u s' hl he hs hrun hl' hu' => ?_⟩
  · have hz := (h.free hl hu).1
    have ht := h.ticks
    exact ⟨hz, by omega⟩
  · have hm := exec_moves h he
    cases hs : exec e s with
    | error p => exact (hm.of_error hs).elim
    | ok s' => exact ⟨s', rfl, (hm.of_ok hs).current⟩
  · have hm := ((exec_moves h he).of_ok hs).sound
    -- the handler found the scheduler locked and put the switch off
    have hput : exec .schedule s =
        .ok { s with kernel := { s.kernel with pendsv := false, yieldPending := true } } := by
      have hs' : isixpSchedule { s.kernel with pendsv := false } =
        .ok { s.kernel with pendsv := false, yieldPending := true } := if_pos (Int.ne_of_gt hl)
      simp only [exec, hs', ok_bind]
      rfl
    have hu : u.kernel.yieldPending = true := by
      rw [hput] at hs
      cases hs
      rfl
    cases pending_requested hm hu hrun with
    | inl hp =>
      rw [((hm.run hrun).free hl' hu').2] at hp
      cases hp
    | inr hd => exact hd

end

/-- A run of steps that begins when two tasks of one priority are started. -/
theorem exists_run_two_tasks [Config] (room : State → Nat → Prop) [∀ s n, Decidable (room s n)] (es : List Step)
    {P : State → Prop} [DecidablePred P]
    (h : ((isixInit.toOption.bind (Isix.run BootOk
        [.boot (.taskCreate 1 false false), .boot (.taskCreate 1 false false), .start])).any fun k =>
      decide ((k.schrun = true ∧ k.schedLock.value = 0 ∧ k.jiffiesSkipped = 0 ∧ k.yieldPending = false ∧
        k.jiffies = 0) ∧ ((runList (take room) es (start k)).any fun s => decide (P s)) = true)) = true) :
    ∃ k s, Free k ∧ Run (Takes room) (start k) s ∧ P s := by
  obtain ⟨k, hk, ⟨hrun, hlock, hskip, hpend, hj⟩, hes⟩ := exists_reachable _ h
  obtain ⟨s, hs, hP⟩ := exists_run takes_of_take _ hes
  exact ⟨k, s, ⟨hk.inv fun _ _ => id, hrun, hlock, hskip, hpend, by rw [hj]; exact Nat.zero_lt_succ _⟩, hs, hP⟩

/-- Two tasks: the first is interrupted by the timer while it holds the lock,
and the switch to the second waits for the unlock. -/
theorem lock_loses_nothing_two_tasks : ∃ (_ : Config) (k : Kernel) (s : State), Free k ∧
    Run (Takes DrainRoom) (start k) s ∧ s.locks = 1 ∧ s.kernel.jiffiesSkipped = 3 ∧
    s.kernel.yieldPending = true ∧
    ((s.kernel.jiffies : Int) + s.kernel.jiffiesSkipped) % 4294967296 = s.announced % 4294967296 := by
  let _ := smallConfig
  obtain ⟨k, s, hk, hs, hl, hskip, hp⟩ := exists_run_two_tasks DrainRoom
    [.lock, .announce 3, .yield, .schedule]
    (P := fun s => s.locks = 1 ∧ s.kernel.jiffiesSkipped = 3 ∧ s.kernel.yieldPending = true) (by decide +kernel)
  exact ⟨smallConfig, k, s, hk, hs, hl, hskip, hp, (lock_loses_nothing hk hs).1⟩

/-- Less than 2^31 ticks in each locked interval are not enough.  The first task
is interrupted between the two steps of its unlock, with 2^31 - 1 ticks
skipped; one more tick in the locked interval of the second task makes
`jiffies_skipped` negative, and its unlock drops all of them. -/
theorem interval_ticks_lost : ∃ (_ : Config) (k : Kernel) (s : State), Free k ∧
    Run (Takes IntervalRoom) (start k) s ∧ s.locks = 0 ∧ s.unlocking = 0 ∧ s.announced = 2147483648 ∧
    s.used = 0 ∧ s.kernel.jiffies = 0 ∧ s.kernel.jiffiesSkipped = 0 := by
  let _ := smallConfig
  exact ⟨smallConfig, exists_run_two_tasks IntervalRoom
    [.lock, .announce 2147483647, .decrement, .yield, .schedule,
      .lock, .announce 1, .decrement, .drain, .yield, .schedule, .drain]
    (P := fun s => s.locks = 0 ∧ s.unlocking = 0 ∧ s.announced = 2147483648 ∧ s.used = 0 ∧
      s.kernel.jiffies = 0 ∧ s.kernel.jiffiesSkipped = 0) (by decide +kernel)⟩

end Isix.SchedLock
