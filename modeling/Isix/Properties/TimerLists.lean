import Isix.Softtimers

/-!
# Isix.Properties.TimerLists

The lists of the virtual timers.  They stay sorted and every timer on them is
linked once (`Shape`); work on one timer leaves the others alone (`Apart`), so
what the two loops of the worker do can be told from the side of one timer
(`handleTimeLoop_spec`, `switchLoop_apart`).  `Placed` says where the tick code
has put a deadline given in real time.
-/

namespace Isix.Softtimers

open Function (update update_of_ne)
open VtimerContext Intrusive

/-! ## real time and tick values -/

theorem toTick_lt_iff {a b : Nat} (h : a / tickMod = b / tickMod) : toTick a < toTick b ↔ a < b := by
  simp only [toTick, tickMod] at *
  omega

theorem toTick_le_iff {a b : Nat} (h : a / tickMod = b / tickMod) : toTick a ≤ toTick b ↔ a ≤ b := by
  simp only [toTick, tickMod] at *
  omega

/-- A later time less than a whole counter range away has a smaller tick value
exactly when the counter wrapped in between. -/
theorem toTick_lt_iff_wrapped {a b : Nat} (hab : a ≤ b) (hb : b < a + tickMod) :
    toTick b < toTick a ↔ b / tickMod = a / tickMod + 1 := by
  simp only [toTick, tickMod] at *
  omega

theorem div_eq_or_wrapped {a b : Nat} (hab : a ≤ b) (hb : b < a + tickMod) :
    b / tickMod = a / tickMod ∨ b / tickMod = a / tickMod + 1 := by
  simp only [tickMod] at *
  omega

theorem toTick_add (a b : Nat) : toTick (toTick a + b) = toTick (a + b) := by
  simp only [toTick, tickMod]
  omega

/-- The unsigned difference of two tick values. -/
theorem tickSub_toTick {a b : Nat} (hab : a ≤ b) (hb : b < a + tickMod) :
    tickSub (toTick b) (toTick a) = b - a := by
  simp only [tickSub, toTick, tickMod] at *
  omega

/-- `next - timeout + timeout` on `ostick_t` -/
theorem tickSub_add (a p : Nat) : toTick (tickSub (toTick a) p + p) = toTick a := by
  simp only [tickSub, toTick, tickMod]
  omega

/-! ## sorted lists, each timer linked once -/

structure Shape (c : VtimerContext) : Prop where
  linked : Linked c.lists fun x => (c.vtimer x).inode
  sorted : ∀ b, (c.lists b).Pairwise fun x y => (c.vtimer x).jiffies ≤ (c.vtimer y).jiffies

theorem Shape.init : Shape Worker.init.tctx :=
  ⟨fun k i => by simp [Worker.init, Vtimer.zero], fun _ => List.Pairwise.nil⟩

/-- The links and the deadlines are the same. -/
structure SameLists (c c' : VtimerContext) : Prop where
  lists : c'.lists = c.lists
  list : c'.pVtimerList = c.pVtimerList
  inode : ∀ x, (c'.vtimer x).inode = (c.vtimer x).inode
  jiffies : ∀ x, (c'.vtimer x).jiffies = (c.vtimer x).jiffies

variable {K : Callbacks} {N fuel : Nat} {c c' : VtimerContext} {x y : TmrId}

theorem Shape.head_inode {b : Bool} {l : List TmrId} (h : Shape c) (hl : c.lists b = x :: l) :
    (c.vtimer x).inode = some b :=
  h.linked.mem_iff.mp (hl ▸ List.mem_cons_self)

theorem SameLists.refl (c : VtimerContext) : SameLists c c := ⟨rfl, rfl, fun _ => rfl, fun _ => rfl⟩

theorem SameLists.trans {c'' : VtimerContext} (h : SameLists c c') (h' : SameLists c' c'') :
    SameLists c c'' :=
  ⟨h'.lists.trans h.lists, h'.list.trans h.list, fun x => (h'.inode x).trans (h.inode x),
    fun x => (h'.jiffies x).trans (h.jiffies x)⟩

theorem SameLists.shape (h : SameLists c c') (hs : Shape c) : Shape c' := by
  refine ⟨?_, fun b => ?_⟩
  · rw [h.lists]
    exact hs.linked.congr h.inode
  · simp only [h.lists, h.jiffies]
    exact hs.sorted b

/-- A write to the fields of a timer that are not about its place. -/
theorem sameLists_withTimer {g : Vtimer → Vtimer} (hi : ∀ v, (g v).inode = v.inode)
    (hj : ∀ v, (g v).jiffies = v.jiffies) : SameLists c (c.withTimer x g) := by
  refine ⟨rfl, rfl, fun y => ?_, fun y => ?_⟩
  all_goals
    by_cases hy : y = x
    · subst hy
      simp [withTimer, hi, hj]
    · simp [withTimer, update_of_ne hy]

theorem isixVtimerMod_sameLists (n : Nat) : SameLists c (isixVtimerMod x n c).1 := by
  unfold isixVtimerMod
  split
  · exact .refl c
  · split
    all_goals
      dsimp only
      apply sameLists_withTimer
      all_goals exact fun _ => rfl

theorem applyMods_sameLists (mods : List (TmrId × Nat)) (c : VtimerContext) :
    SameLists c (applyMods mods c) := by
  induction mods generalizing c with
  | nil => exact .refl c
  | cons m mods ih => exact (isixVtimerMod_sameLists m.2).trans (ih _)

theorem invoke_sameLists (x : TmrId) : SameLists c (invoke K x c) := by
  unfold invoke
  cases (c.vtimer x).callback with
  | none => exact .refl c
  | some f =>
    have hlog : SameLists c { c with invoked := c.invoked ++ [⟨x, f, (c.vtimer x).arg⟩] } :=
      ⟨rfl, rfl, fun _ => rfl, fun _ => rfl⟩
    exact hlog.trans (applyMods_sameLists _ _)

theorem execTimerCallback_sameLists (x : TmrId) : SameLists c (execTimerCallback K x c) := by
  have h := invoke_sameLists (K := K) (c := c) x
  unfold execTimerCallback
  dsimp only
  split
  · exact h
  · refine h.trans (sameLists_withTimer ?_ ?_)
    all_goals exact fun _ => rfl

theorem listDelete_inode : ((c.listDelete x).vtimer x).inode = none := by
  unfold listDelete
  cases h : (c.vtimer x).inode with
  | none => exact h
  | some b => simp [withTimer]

theorem listDelete_list : (c.listDelete x).pVtimerList = c.pVtimerList := by
  unfold listDelete
  split <;> rfl

theorem listDelete_invoked : (c.listDelete x).invoked = c.invoked := by
  unfold listDelete
  split <;> rfl

theorem listDelete_of_ne (h : y ≠ x) : (c.listDelete x).vtimer y = c.vtimer y := by
  unfold listDelete
  split
  · rfl
  · simp [withTimer, update_of_ne h]

/-- Only the link of the timer changes. -/
theorem listDelete_self : (c.listDelete x).vtimer x = { c.vtimer x with inode := none } := by
  unfold listDelete
  cases h : (c.vtimer x).inode with
  | none =>
    dsimp only
    rw [← h]
  | some b => simp [withTimer]

theorem listDelete_jiffies (y : TmrId) : ((c.listDelete x).vtimer y).jiffies = (c.vtimer y).jiffies := by
  by_cases h : y = x
  · subst h
    rw [listDelete_self]
  · rw [listDelete_of_ne h]

theorem Shape.listDelete (h : Shape c) : Shape (c.listDelete x) := by
  refine ⟨?_, fun b => ?_⟩
  · unfold VtimerContext.listDelete
    cases hi : (c.vtimer x).inode with
    | none => exact h.linked
    | some b =>
      refine (h.linked.unlink hi).congr fun y => ?_
      by_cases hy : y = x
      · subst hy
        simp [withTimer]
      · simp [withTimer, update_of_ne hy]
  · simp only [listDelete_jiffies]
    have hsub : ((c.listDelete x).lists b).Sublist (c.lists b) := by
      unfold VtimerContext.listDelete
      split
      · exact List.Sublist.refl _
      · rename_i b' _
        by_cases hb : b = b'
        · subst hb
          simp [List.erase_sublist]
        · simp [update_of_ne hb]
    exact (h.sorted b).sublist hsub

section

variable (h : Shape c) (hx : (c.vtimer x).inode = none)

include h hx

theorem Shape.addListWithPrio {b : Bool} : Shape (addListWithPrio b x c) := by
  have hj : ∀ y, ((Softtimers.addListWithPrio b x c).vtimer y).jiffies = (c.vtimer y).jiffies := by
    intro y
    by_cases hy : y = x
    · subst hy
      simp [Softtimers.addListWithPrio, withTimer]
    · simp [Softtimers.addListWithPrio, withTimer, update_of_ne hy]
  refine ⟨?_, fun b' => ?_⟩
  · refine (h.linked.link hx (insertBefore_perm _ x _)).congr fun y => ?_
    by_cases hy : y = x
    · subst hy
      simp [Softtimers.addListWithPrio, withTimer]
    · simp [Softtimers.addListWithPrio, withTimer, update_of_ne hy]
  · simp only [hj]
    by_cases hb : b' = b
    · subst hb
      simpa [Softtimers.addListWithPrio] using
        pairwise_insertBefore (h.sorted b')
    · simpa [Softtimers.addListWithPrio, update_of_ne hb] using h.sorted b'

/-- The deadline of a timer that is on no list can be written. -/
theorem Shape.withTimer {g : Vtimer → Vtimer} (hi : ∀ v, (g v).inode = v.inode) : Shape (c.withTimer x g) := by
  refine ⟨h.linked.congr fun y => ?_, fun b => ?_⟩
  · by_cases hy : y = x
    · subst hy
      simp [VtimerContext.withTimer, hi]
    · simp [VtimerContext.withTimer, update_of_ne hy]
  · refine (h.sorted b).imp_of_mem fun {u w} hu hw huw => ?_
    have hne : ∀ z ∈ c.lists b, z ≠ x := by
      rintro z hz rfl
      have := h.linked.mem_iff.mp hz
      rw [hx] at this
      cases this
    simpa [VtimerContext.withTimer, update_of_ne (hne u hu), update_of_ne (hne w hw)]
      using huw

theorem Shape.addVtimerToList : Shape (addVtimerToList N x c) := by
  apply Shape.addListWithPrio
  · apply h.withTimer hx
    exact fun _ => rfl
  · simpa [VtimerContext.withTimer] using hx

theorem Shape.setAndAdd (g : Vtimer → Vtimer) (hi : ∀ v, (g v).inode = v.inode) :
    Shape (Softtimers.addVtimerToList N x (c.withTimer x g)) := by
  apply (h.withTimer hx hi).addVtimerToList
  simpa [VtimerContext.withTimer, hi] using hx

end

/-! ## work on one timer leaves the others alone -/

/-- The number of calls of the callback of `x`. -/
def VtimerContext.calls (x : TmrId) (c : VtimerContext) : Nat :=
  c.invoked.countP fun i => decide (i.timer = x)

/-- No callback that is still to come calls `isix_vtimer_mod` for `x`. -/
def Spared (K : Callbacks) (x : TmrId) (c : VtimerContext) : Prop :=
  ∀ n, c.invoked.length ≤ n → ∀ m ∈ K n, m.1 ≠ x

theorem Spared.mono (h : Spared K x c) (hle : c.invoked.length ≤ c'.invoked.length) : Spared K x c' :=
  fun n hn => h n (hle.trans hn)

/-- `isix_vtimer_mod` has no effect on `x`: no callback calls it for `x`, or
`x` is one-shot. -/
def Unmodified (K : Callbacks) (x : TmrId) (c : VtimerContext) : Prop :=
  Spared K x c ∨ (c.vtimer x).cyclic = false

/-- Nothing has happened to `x`. -/
structure Apart (x : TmrId) (c c' : VtimerContext) : Prop where
  vtimer : c'.vtimer x = c.vtimer x
  calls : c'.calls x = c.calls x
  list : c'.pVtimerList = c.pVtimerList
  grows : c.invoked.length ≤ c'.invoked.length

theorem Apart.refl (x : TmrId) (c : VtimerContext) : Apart x c c := ⟨rfl, rfl, rfl, le_rfl⟩

theorem Apart.trans {c'' : VtimerContext} (h : Apart x c c') (h' : Apart x c' c'') : Apart x c c'' :=
  ⟨h'.vtimer.trans h.vtimer, h'.calls.trans h.calls, h'.list.trans h.list, h.grows.trans h'.grows⟩

theorem Apart.unmodified (h : Apart x c c') (hu : Unmodified K x c) : Unmodified K x c' :=
  hu.imp (fun hs => hs.mono h.grows) fun hc => by rwa [h.vtimer]

theorem apart_withTimer {g : Vtimer → Vtimer} (h : y ≠ x) : Apart x c (c.withTimer y g) :=
  ⟨by simp [withTimer, update_of_ne (Ne.symm h)], rfl, rfl, le_rfl⟩

theorem apart_listDelete (h : y ≠ x) : Apart x c (c.listDelete y) := by
  refine ⟨listDelete_of_ne (Ne.symm h), ?_, listDelete_list, by rw [listDelete_invoked]⟩
  rw [VtimerContext.calls, VtimerContext.calls, listDelete_invoked]

theorem apart_addVtimerToList (h : y ≠ x) : Apart x c (addVtimerToList N y c) := by
  refine ⟨?_, rfl, rfl, le_rfl⟩
  simp [addVtimerToList, addListWithPrio, withTimer, update_of_ne (Ne.symm h)]

theorem isixVtimerMod_invoked (n : Nat) : (isixVtimerMod y n c).1.invoked = c.invoked := by
  unfold isixVtimerMod
  split
  · rfl
  · split <;> rfl

theorem applyMods_invoked (mods : List (TmrId × Nat)) (c : VtimerContext) :
    (applyMods mods c).invoked = c.invoked := by
  induction mods generalizing c with
  | nil => rfl
  | cons m mods ih => exact (ih _).trans (isixVtimerMod_invoked m.2)

theorem isixVtimerMod_vtimer (n : Nat) (h : y ≠ x ∨ (c.vtimer x).cyclic = false) :
    (isixVtimerMod y n c).1.vtimer x = c.vtimer x := by
  unfold isixVtimerMod
  by_cases hy : y = x
  · subst hy
    rw [if_pos (h.resolve_left (not_not.mpr rfl))]
  · split
    · rfl
    · split <;> simp [withTimer, update_of_ne (Ne.symm hy)]

theorem applyMods_vtimer {mods : List (TmrId × Nat)}
    (h : ∀ m ∈ mods, m.1 ≠ x ∨ (c.vtimer x).cyclic = false) :
    (applyMods mods c).vtimer x = c.vtimer x := by
  induction mods generalizing c with
  | nil => rfl
  | cons m mods ih =>
    have hm := isixVtimerMod_vtimer m.2 (h m List.mem_cons_self)
    have hrest := ih fun k hk => by
      rw [hm]
      exact h k (List.mem_cons_of_mem m hk)
    exact hrest.trans hm

theorem Unmodified.mods (h : Unmodified K x c) :
    ∀ m ∈ K c.invoked.length, m.1 ≠ x ∨ (c.vtimer x).cyclic = false := by
  intro m hm
  exact h.imp (fun h => h _ le_rfl m hm) id

theorem invoke_vtimer (hu : Unmodified K x c) : (invoke K y c).vtimer x = c.vtimer x := by
  unfold invoke
  split
  · rfl
  · exact applyMods_vtimer hu.mods

theorem invoke_calls_of_ne (h : y ≠ x) : (invoke K y c).calls x = c.calls x := by
  unfold invoke
  split
  · rfl
  · simp [VtimerContext.calls, applyMods_invoked, h]

theorem invoke_calls_self {f : Nat} (hf : (c.vtimer x).callback = some f) :
    (invoke K x c).calls x = c.calls x + 1 := by
  unfold invoke
  rw [hf]
  simp [VtimerContext.calls, applyMods_invoked]

theorem invoke_grows : c.invoked.length ≤ (invoke K y c).invoked.length := by
  unfold invoke
  split
  · exact le_rfl
  · simp [applyMods_invoked]

theorem execTimerCallback_grows : c.invoked.length ≤ (execTimerCallback K y c).invoked.length := by
  unfold execTimerCallback
  dsimp only
  split <;> exact invoke_grows

theorem apart_execTimerCallback (h : y ≠ x) (hu : Unmodified K x c) :
    Apart x c (execTimerCallback K y c) := by
  have hi : Apart x c (invoke K y c) :=
    ⟨invoke_vtimer hu, invoke_calls_of_ne h, (invoke_sameLists y).list, invoke_grows⟩
  unfold execTimerCallback
  dsimp only
  split
  · exact hi
  · exact hi.trans (apart_withTimer h)

/-- The fields of a one-shot timer after its callback. -/
theorem execTimerCallback_oneshot (h : (c.vtimer x).cyclic = false) :
    (execTimerCallback K x c).vtimer x = { c.vtimer x with isActive := false } := by
  have hv := invoke_vtimer (y := x) (.inr h : Unmodified K x c)
  unfold execTimerCallback
  dsimp only
  rw [hv, h]
  simp [withTimer, hv, h]

theorem execTimerCallback_cyclic (h : (c.vtimer x).cyclic = true) (hu : Unmodified K x c) :
    (execTimerCallback K x c).vtimer x = c.vtimer x := by
  have hv := invoke_vtimer (y := x) hu
  unfold execTimerCallback
  dsimp only
  rw [hv, if_pos h, hv]

theorem execTimerCallback_calls {f : Nat} (hf : (c.vtimer x).callback = some f) :
    (execTimerCallback K x c).calls x = c.calls x + 1 := by
  have hc := invoke_calls_self (K := K) hf
  unfold execTimerCallback
  dsimp only
  split
  · exact hc
  · exact hc

theorem apart_handleCancel (h : y ≠ x) : Apart x c (handleCancel y c) := by
  unfold handleCancel
  split
  · exact (apart_listDelete h).trans (apart_withTimer h)
  · exact .refl x c

theorem apart_handleAdd {param : StartParam} (h : param.tmr ≠ x) (hu : Unmodified K x c) :
    Apart x c (handleAdd K N param c) := by
  unfold handleAdd
  dsimp only
  split
  · have hset : Apart x c _ := apart_withTimer (g := fun v =>
      { v with jiffies := param.itime, timeout := param.tout, callback := param.callback
               arg := param.args, cyclic := param.cyclic, isActive := true }) h
    have hrun := hset.trans (apart_execTimerCallback h (hset.unmodified hu))
    split
    · exact (hrun.trans (apart_withTimer h)).trans (apart_addVtimerToList h)
    · exact hrun
  · exact (apart_withTimer h).trans (apart_addVtimerToList h)

/-- What the callbacks keep and the insertion ends in, the catch-up loop ends in. -/
theorem cyclicLoop_keeps {P Q : VtimerContext → Prop} (hQ : ∀ c, P c → Q c)
    (hexec : ∀ c, P c → P (execTimerCallback K x c))
    (hadd : ∀ c g, P c → (∀ v, (g v).inode = v.inode) → Q (addVtimerToList N x (c.withTimer x g))) :
    ∀ (fuel next : Nat) {c c' : VtimerContext}, P c → cyclicLoop K N x fuel next c = some c' → Q c' := by
  intro fuel
  induction fuel with
  | zero =>
    intro next c c' _ he
    cases he
  | succ fuel ih =>
    intro next c c' h he
    rw [cyclicLoop] at he
    split at he
    · dsimp only at he
      split at he
      · cases he
        exact hQ _ (hexec c h)
      · split at he
        · cases he
          exact hadd _ _ (hexec c h) fun _ => rfl
        · exact ih _ (hexec c h) he
    · cases he
      exact hadd _ _ h fun _ => rfl

theorem rescheduleIfCyclic_keeps {P Q : VtimerContext → Prop} (hQ : ∀ c, P c → Q c)
    (hexec : ∀ c, P c → P (execTimerCallback K x c))
    (hadd : ∀ c g, P c → (∀ v, (g v).inode = v.inode) → Q (addVtimerToList N x (c.withTimer x g)))
    (h : P c) (he : rescheduleIfCyclic K N fuel x c = some c') : Q c' := by
  unfold rescheduleIfCyclic cyclicRescheduleAfterFire at he
  split at he
  · split at he
    · cases he
      simpa [withTimer] using hadd c id h fun _ => rfl
    · exact cyclicLoop_keeps hQ hexec hadd _ _ h he
  · cases he
    exact hQ c h

theorem apart_rescheduleIfCyclic (h : y ≠ x) (hu : Unmodified K x c)
    (he : rescheduleIfCyclic K N fuel y c = some c') : Apart x c c' :=
  rescheduleIfCyclic_keeps (fun _ => id)
    (fun _ hd => hd.trans (apart_execTimerCallback h (hd.unmodified hu)))
    (fun _ _ hd _ => (hd.trans (apart_withTimer h)).trans (apart_addVtimerToList h)) (.refl x c) he

theorem Spared.rescheduleIfCyclic (h : Spared K x c)
    (he : Softtimers.rescheduleIfCyclic K N fuel y c = some c') : Spared K x c' :=
  rescheduleIfCyclic_keeps (fun _ => id) (fun _ hd => hd.mono execTimerCallback_grows) (fun _ _ hd _ => hd) h he

/-! ## the shape is kept -/

theorem Shape.rescheduleIfCyclic (h : Shape c) (hx : (c.vtimer x).inode = none)
    (he : Softtimers.rescheduleIfCyclic K N fuel x c = some c') : Shape c' := by
  refine rescheduleIfCyclic_keeps (P := fun d => Shape d ∧ (d.vtimer x).inode = none) (fun _ hd => hd.1)
    (fun d hd => ?_) (fun _ g hd => hd.1.setAndAdd hd.2 g) ⟨h, hx⟩ he
  have hsame := execTimerCallback_sameLists (K := K) (c := d) x
  exact ⟨hsame.shape hd.1, (hsame.inode x).trans hd.2⟩

theorem Shape.handleCancel (h : Shape c) : Shape (handleCancel x c) := by
  unfold Softtimers.handleCancel
  split
  · apply h.listDelete.withTimer listDelete_inode
    exact fun _ => rfl
  · exact h

theorem handleCancel_invoked : (handleCancel x c).invoked = c.invoked := by
  unfold handleCancel
  split
  · exact listDelete_invoked
  · rfl

theorem handleCancel_calls : (handleCancel x c).calls y = c.calls y := by
  rw [VtimerContext.calls, handleCancel_invoked, VtimerContext.calls]

theorem handleCancel_inode : ((handleCancel x c).vtimer x).inode = none := by
  unfold handleCancel
  split
  · have := listDelete_inode (c := c) (x := x)
    simpa [withTimer] using this
  · rename_i h
    simpa using h

theorem Shape.handleAdd {param : StartParam} (h : Shape c) (hx : (c.vtimer param.tmr).inode = none) :
    Shape (handleAdd K N param c) := by
  unfold Softtimers.handleAdd
  dsimp only
  generalize hd : c.withTimer param.tmr _ = d
  have hds : Shape d := by
    rw [← hd]
    apply h.withTimer hx
    exact fun _ => rfl
  have hdx : (d.vtimer param.tmr).inode = none := by
    rw [← hd]
    simpa [VtimerContext.withTimer] using hx
  have hsame := execTimerCallback_sameLists (K := K) (c := d) param.tmr
  split
  · split
    · exact (hsame.shape hds).setAndAdd ((hsame.inode param.tmr).trans hdx) _ fun _ => rfl
    · exact hsame.shape hds
  · exact hds.addVtimerToList hdx

theorem Shape.handleCommand (h : Shape c) (cmd : Option Command) :
    Shape (handleCommand K N cmd c) := by
  unfold Softtimers.handleCommand
  split
  · exact h.handleCancel.handleAdd handleCancel_inode
  · exact h.handleCancel
  · exact h.handleCancel
  · exact h
  · exact h

theorem Shape.switchLoop : ∀ (fuel : Nat) {cur : Option TmrId} {c c' : VtimerContext},
    Softtimers.switchLoop K N fuel cur c = some c' → Shape c → Shape c' := by
  intro fuel
  induction fuel with
  | zero =>
    intro cur c c' he hs
    cases cur with
    | none =>
      cases he
      exact hs
    | some y => cases he
  | succ fuel ih =>
    intro cur c c' he hs
    cases cur with
    | none =>
      cases he
      exact hs
    | some y =>
      rw [Softtimers.switchLoop] at he
      obtain ⟨d, hd, he⟩ := Option.bind_eq_some_iff.mp he
      have hsame := execTimerCallback_sameLists (K := K) (c := c.listDelete y) y
      exact ih he ((hsame.shape hs.listDelete).rescheduleIfCyclic
        ((hsame.inode y).trans listDelete_inode) hd)

theorem Shape.switchIf {b : Bool} (hs : Shape c) (he : Softtimers.switchIf K N fuel b c = some c') :
    Shape c' := by
  unfold Softtimers.switchIf switchTimerList at he
  split at he
  · obtain ⟨d, hd, rfl⟩ := Option.map_eq_some_iff.mp he
    have hsd := hs.switchLoop fuel hd
    exact ⟨hsd.linked, hsd.sorted⟩
  · cases he
    exact hs

theorem Shape.handleTimeLoop : ∀ (fuel : Nat) {c c' : VtimerContext},
    Softtimers.handleTimeLoop K N fuel c = some c' → Shape c → Shape c' := by
  intro fuel
  induction fuel with
  | zero =>
    intro c c' he
    cases he
  | succ fuel ih =>
    intro c c' he hs
    rw [Softtimers.handleTimeLoop] at he
    split at he
    · cases he
      exact hs
    · rename_i y ys hl
      split at he
      · obtain ⟨d, hd, he⟩ := Option.bind_eq_some_iff.mp he
        exact ih he (((execTimerCallback_sameLists y).shape hs).listDelete.rescheduleIfCyclic
          listDelete_inode hd)
      · cases he
        exact hs

/-! ## the loops, seen from one timer -/

/-- What the loops need to know about the timer `x`: a property of the timer,
of the calls of its callback and of the current list. -/
abbrev Story := Vtimer → Nat → Bool → Prop

def VtimerContext.tells (c : VtimerContext) (x : TmrId) (J : Story) : Prop :=
  J (c.vtimer x) (c.calls x) c.pVtimerList

theorem Apart.tells {J : Story} (h : Apart x c c') (hJ : c.tells x J) : c'.tells x J := by
  unfold VtimerContext.tells at *
  rwa [h.vtimer, h.calls, h.list]

variable {J : Story}

/-- The loop of `handle_time` keeps a property of one timer that the firing of
this timer keeps, and leaves no deadline on the current list that has come. -/
theorem handleTimeLoop_spec
    (hfire : ∀ fuel c c', Unmodified K x c → c.tells x J → (c.vtimer x).inode = some c.pVtimerList →
      (c.vtimer x).jiffies ≤ N →
      rescheduleIfCyclic K N fuel x ((execTimerCallback K x c).listDelete x) = some c' →
      c'.tells x J ∧ Unmodified K x c') :
    ∀ (fuel : Nat) {c c' : VtimerContext}, handleTimeLoop K N fuel c = some c' → Shape c →
      c.tells x J → Unmodified K x c → c'.tells x J ∧ Unmodified K x c' ∧
        ∀ y, (c'.vtimer y).inode = some c'.pVtimerList → N < (c'.vtimer y).jiffies := by
  intro fuel
  induction fuel with
  | zero =>
    intro c c' he
    cases he
  | succ fuel ih =>
    intro c c' he hs hJ hu
    rw [handleTimeLoop] at he
    cases hl : c.lists c.pVtimerList with
    | nil =>
      rw [hl] at he
      cases he
      refine ⟨hJ, hu, fun y hy => ?_⟩
      rw [← hs.linked.mem_iff, hl] at hy
      cases hy
    | cons y ys =>
      rw [hl] at he
      dsimp only at he
      split at he
      · rename_i hdue
        obtain ⟨d, hd, he⟩ := Option.bind_eq_some_iff.mp he
        have hsd : Shape d :=
          ((execTimerCallback_sameLists y).shape hs).listDelete.rescheduleIfCyclic listDelete_inode hd
        by_cases hy : y = x
        · subst hy
          obtain ⟨hJ', hu'⟩ := hfire fuel c d hu hJ (hs.head_inode hl) hdue hd
          exact ih he hsd hJ' hu'
        · have hexec := (apart_execTimerCallback hy hu).trans (apart_listDelete hy)
          have hap := hexec.trans (apart_rescheduleIfCyclic hy (hexec.unmodified hu) hd)
          exact ih he hsd (hap.tells hJ) (hap.unmodified hu)
      · rename_i hnot
        cases he
        refine ⟨hJ, hu, fun z hz => ?_⟩
        -- the list is sorted, so no other deadline on it has come either
        rw [← hs.linked.mem_iff, hl] at hz
        have hsort := hs.sorted c.pVtimerList
        rw [hl] at hsort
        rcases List.mem_cons.mp hz with rfl | hz
        · omega
        · have := (List.pairwise_cons.mp hsort).1 z hz
          omega

/-- The loop of `switch_timer_list` does nothing to a timer that is not on the
current list. -/
theorem switchLoop_apart : ∀ (fuel : Nat) {cur : Option TmrId} {c c' : VtimerContext},
    switchLoop K N fuel cur c = some c' → Shape c → Unmodified K x c →
    (c.vtimer x).inode ≠ some c.pVtimerList → cur ≠ some x → Shape c' ∧ Apart x c c' := by
  intro fuel
  induction fuel with
  | zero =>
    intro cur c c' he hs _ _ _
    cases cur with
    | none =>
      cases he
      exact ⟨hs, .refl x _⟩
    | some y => cases he
  | succ fuel ih =>
    intro cur c c' he hs hu hx hcur
    cases cur with
    | none =>
      cases he
      exact ⟨hs, .refl x _⟩
    | some y =>
      have hy : y ≠ x := fun h => hcur (by rw [h])
      rw [switchLoop] at he
      obtain ⟨d, hd, he⟩ := Option.bind_eq_some_iff.mp he
      have hdel := apart_listDelete (c := c) hy
      have hexec := hdel.trans (apart_execTimerCallback hy (hdel.unmodified hu))
      have hap := hexec.trans (apart_rescheduleIfCyclic hy (hexec.unmodified hu) hd)
      have hsd : Shape d := by
        have hsame := execTimerCallback_sameLists (K := K) (c := c.listDelete y) y
        exact (hsame.shape hs.listDelete).rescheduleIfCyclic
          ((hsame.inode y).trans listDelete_inode) hd
      obtain ⟨hs', hap'⟩ := ih he hsd (hap.unmodified hu) (by rw [hap.vtimer, hap.list]; exact hx)
        fun htmp => hx (hs.linked.mem_iff.mp (mem_of_next? htmp))
      exact ⟨hs', hap.trans hap'⟩

/-! ## where a deadline is kept -/

/-- A timer with the real deadline `due` in the epoch `e` of the tick counter:
it is on the list of the epoch its deadline is in. -/
structure Placed (due e : Nat) (v : Vtimer) (p : Bool) : Prop where
  jiffies : v.jiffies = toTick due
  epoch : due / tickMod = e ∨ due / tickMod = e + 1
  inode : v.inode = some (if due / tickMod = e then p else !p)

/-- On the current list the deadline is in the current epoch. -/
theorem Placed.epoch_of_current {due e : Nat} {v : Vtimer} {p : Bool} (h : Placed due e v p)
    (hp : v.inode = some p) : due / tickMod = e := by
  have hi := h.inode
  by_contra hne
  rw [if_neg hne, hp] at hi
  cases p <;> cases hi

/-- The lists change places when a new epoch begins. -/
theorem Placed.swap {due e : Nat} {v : Vtimer} {p : Bool} (h : Placed due e v p)
    (hp : v.inode ≠ some p) : Placed due (e + 1) v (!p) := by
  have hne : due / tickMod ≠ e := by
    intro he
    apply hp
    rw [h.inode, if_pos he]
  have he := h.epoch.resolve_left hne
  refine ⟨h.jiffies, .inl he, ?_⟩
  rw [h.inode, if_neg hne, if_pos he]

/-- A deadline on the current list has come when its tick value has. -/
theorem Placed.due_le {due t : Nat} {v : Vtimer} {p : Bool} (h : Placed due (t / tickMod) v p)
    (hp : v.inode = some p) (hj : v.jiffies ≤ toTick t) : due ≤ t := by
  rw [h.jiffies] at hj
  exact (toTick_le_iff (h.epoch_of_current hp)).mp hj

/-- No deadline of the current list has come, so none has. -/
theorem Placed.lt_due {due t : Nat} {v : Vtimer} {p : Bool} (h : Placed due (t / tickMod) v p)
    (hj : v.inode = some p → toTick t < v.jiffies) : t < due := by
  by_cases he : due / tickMod = t / tickMod
  · have hp := h.inode
    rw [if_pos he] at hp
    have := hj hp
    rw [h.jiffies] at this
    exact (toTick_lt_iff he.symm).mp this
  · have he' := h.epoch.resolve_left he
    simp only [tickMod] at he'
    omega

/-- `add_vtimer_to_list` finds the list of a deadline less than one counter
range ahead. -/
theorem placed_addVtimerToList {due t : Nat} (hj : toTick ((c.vtimer x).jiffies + (c.vtimer x).timeout) = toTick due)
    (ht : t ≤ due) (hd : due < t + tickMod) :
    Placed due (t / tickMod) ((addVtimerToList (toTick t) x c).vtimer x) c.pVtimerList := by
  have hwrap := toTick_lt_iff_wrapped ht hd
  refine ⟨?_, div_eq_or_wrapped ht hd, ?_⟩
  · simp [addVtimerToList, addListWithPrio, withTimer, hj]
  · rcases div_eq_or_wrapped ht hd with he | he
    · have : ¬toTick due < toTick t := by
        rw [hwrap]
        omega
      simp [addVtimerToList, addListWithPrio, withTimer, hj, this, he]
    · simp [addVtimerToList, addListWithPrio, withTimer, hj, hwrap.mpr he, he]

theorem addVtimerToList_self : (addVtimerToList N x c).vtimer x =
    { c.vtimer x with
      jiffies := ((addVtimerToList N x c).vtimer x).jiffies
      inode := ((addVtimerToList N x c).vtimer x).inode } := by
  simp [addVtimerToList, addListWithPrio, withTimer]

end Isix.Softtimers
