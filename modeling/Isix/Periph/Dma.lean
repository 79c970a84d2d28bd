import Isix.Lib.Runs

/-!
# Isix.Periph.Dma

How the two DMA controllers (`stm32_dma_v1.cpp`, `stm32_dma_v2.cpp`) give their
streams to transfers.  Threads request transfers through channels and abort them;
they search for a stream with `m_mtx` locked, one stream after the other, and
without a free one they unlock it and wait for `m_brodcast`.  The interrupt that
completes a transfer frees its stream without the mutex and resets the semaphore.

What a hardware stream carries is kept beside what the controller knows of it.
-/

namespace Isix.Periph.Dma

open Function (update update_self update_of_ne)
open Runs

/-! ## the controllers -/

/-- `ISIX_ETIMEOUT`, `ISIX_ERESET` and `periph::error` -/
def etimeout : Int := -3
def ereset : Int := -9
def noent : Int := -136
def notSupported : Int := -521
def inval : Int := -525

def waitTimeout : Nat := 5000

inductive Version
  | v1
  | v2
deriving DecidableEq

/-- `nchns` and the streams of each device in `dev_chn_map` -/
structure Controller where
  version : Version
  nchns : Nat
  map : List (List Nat)

/-- `_chb` of the first controller counts from 1; a mask has eight bits -/
def stm32DmaV1 : Controller where
  version := .v1
  nchns := 7
  map := [[0, 1, 2, 3, 4, 5, 6, 7], [0], [1, 3], [1, 3, 5], [2, 4, 6], [1], [1], [4], [3], [6], [5], [2, 4, 6],
    [1, 3, 5], [1], [2], [3], [3], [3], [4], [5], [0], [1], [4], [6], [6], [1], [2], [2], [5], [5], [2], [2], [3], [3],
    [4], [4], [4], [4], [4], [2], [2], [0], [0], [1], [2], [3], [4], [5], [6]]

/-- `chn_msk`: the streams of the second controller are 8 to 15 -/
def stm32DmaV2 : Controller where
  version := .v2
  nchns := 16
  map := [[8, 9, 10, 11, 12, 13, 14, 15], [0, 2], [5, 7], [3], [4], [0, 6], [6, 7], [2, 4], [0], [3], [7], [6], [2], [5],
    [4], [3], [2], [7], [1], [6], [5], [2], [4], [0], [7], [2], [4], [1], [3], [5], [6], [6], [0], [3], [1], [2], [7],
    [5], [4], [2], [1], [0], [4], [2], [0, 6], [1, 3], [1], [2, 3], [7], [5], [6], [8, 12], [9, 11], [13], [14], [14],
    [14], [10], [10], [10], [9, 15], [10, 11], [14], [13], [8, 9], [11], [12], [13], [14], [15], [8, 10], [11, 13], [8],
    [9], [10, 13], [15], [11, 14], [9, 10], [14, 15], [8, 12], [13], [9], [15], [15]]

/-- A channel: its device, whether `dma_flags_configure` takes its flags and the addresses, and whether it is used
with `continuous_start` -/
structure Channel where
  device : Nat
  valid : Bool := true
  continuous : Bool := false

/-- `bsy_mode`; the first controller knows busy and idle only -/
inductive Bsy
  | idle
  | single
  | continous
deriving DecidableEq

/-! ## the calls -/

/-- The next operation of a thread, with the channel of its call. -/
inductive Pc (n : Nat)
  | idle
  | lock (c : Fin n)
  /-- `find_first` looks at stream `i` -/
  | search (c : Fin n) (unused : Bool) (i : Nat)
  | start (c : Fin n) (i : Nat)
  /-- the mutex is unlocked and `wait` not yet called -/
  | wait (c : Fin n)
  | blocked (c : Fin n) (since : Nat)
  /-- `wait` returned -/
  | woken (c : Fin n) (since : Nat) (err : Int)
  | lockAbort (c : Fin n)
  | abort (c : Fin n) (i : Nat)
deriving DecidableEq

structure State (m n : Nat) where
  /-- `m_act_chns` or `m_act_mode` -/
  act : Nat → Bsy := fun _ => .idle
  /-- `m_chn_id` -/
  handled : Fin n → Option Nat
  /-- the channel of the handler of a stream -/
  handler : Nat → Option (Fin n) := fun _ => none
  mtx : Option (Fin m) := none
  /-- the value of `m_brodcast` -/
  value : Int := 0
  jiffies : Nat := 0
  pc : Fin m → Pc n := fun _ => .idle
  result : Fin m → Int := fun _ => 0
  /-- the transfers a hardware stream carries -/
  carried : Nat → List (Fin n) := fun _ => []

inductive Event (m n : Nat)
  /-- `single`, or `continuous_start` -/
  | request (t : Fin m) (c : Fin n)
  | abort (t : Fin m) (c : Fin n)
  /-- the next operation of a thread -/
  | run (t : Fin m)
  /-- the wait of a thread ends without a signal -/
  | timeout (t : Fin m)
  | tick
  /-- the last transfer of a stream is complete, or failed -/
  | interrupt (i : Nat)

variable {m n : Nat}

/-- `_isixp_sem_reset`: a waiting task gets `ISIX_ERESET` -/
def Pc.reset : Pc n → Pc n
  | .blocked c since => .woken c since ereset
  | pc => pc

namespace State

/-- `broadcast_all` -/
def broadcast (s : State m n) : State m n := { s with value := 0, pc := fun t => (s.pc t).reset }

/-- A stream is free again, also for the channel `c`. -/
def freed (s : State m n) (c : Fin n) (i : Nat) : State m n :=
  { s with act := update s.act i .idle, handled := update s.handled c none, carried := update s.carried i [] }

/-- A call returns, with the mutex unlocked. -/
def done (s : State m n) (t : Fin m) (err : Int) : State m n :=
  { s with mtx := none, pc := update s.pc t .idle, result := update s.result t err }

/-- The transfer of `c` is put on stream `i`. -/
def started (s : State m n) (c : Fin n) (i : Nat) (bsy : Bsy) : State m n :=
  { s with
    act := update s.act i bsy
    handled := update s.handled c (some i)
    handler := update s.handler i (some c)
    carried := update s.carried i (c :: s.carried i) }

end State

section Controller

variable (ctl : Controller) (chans : Fin n → Channel)

/-- The streams of the device of a channel, of those the controller has. -/
def streams (c : Fin n) : List Nat := (ctl.map[(chans c).device]?.getD []).filter (· < ctl.nchns)

/-- What `find_first` looks for -/
def Wanted (s : State m n) : Bool → Nat → Prop
  | true, i => s.act i = .idle
  | false, i => ctl.version = .v1 ∨ s.act i = .single

instance (s : State m n) : ∀ unused i, Decidable (Wanted ctl s unused i)
  | true, _ => inferInstanceAs (Decidable (_ = _))
  | false, _ => inferInstanceAs (Decidable (_ ∨ _))

/-- `find_first` at stream `i`, and what the caller does with its result -/
def search (s : State m n) (t : Fin m) (c : Fin n) (unused : Bool) (i : Nat) : State m n :=
  if ctl.map.length ≤ (chans c).device then s.done t inval
  else if i < ctl.nchns then
    if i ∈ streams ctl chans c ∧ Wanted ctl s unused i then
      if unused then { s with pc := update s.pc t (.start c i) }
      else { s with mtx := none, pc := update s.pc t (.wait c) }
    else { s with pc := update s.pc t (.search c unused (i + 1)) }
  else if unused then { s with pc := update s.pc t (.search c false 0) }
  else s.done t noent

/-- The next operation of thread `t`. -/
def runPc (s : State m n) (t : Fin m) : Pc n → Option (State m n)
  | .idle | .blocked _ _ => none
  | .lock c =>
    if ctl.version = .v1 ∧ (chans c).continuous then
      some { s with pc := update s.pc t .idle, result := update s.result t notSupported }
    else if s.mtx = none then some { s with mtx := some t, pc := update s.pc t (.search c true 0) }
    else none
  | .search c unused i => some (search ctl chans s t c unused i)
  | .start c i =>
    if (chans c).valid then some ((s.started c i (if (chans c).continuous then .continous else .single)).done t 0)
    else some (s.done t inval)
  | .wait c =>
    if 0 ≤ s.value - 1 then some { s with value := s.value - 1, pc := update s.pc t (.woken c s.jiffies 0) }
    else some { s with value := s.value - 1, pc := update s.pc t (.blocked c s.jiffies) }
  | .woken c _ err =>
    if ctl.version = .v1 ∧ err < 0 then
      some { s with pc := update s.pc t .idle, result := update s.result t err }
    else if s.mtx = none then
      if err < 0 then some (s.done t err)
      else some { s with mtx := some t, pc := update s.pc t (.search c true 0) }
    else none
  | .lockAbort c =>
    if s.mtx = none then
      match s.handled c with
      | none => some (s.done t noent)
      | some i => some { s with mtx := some t, pc := update s.pc t (.abort c i) }
    else none
  | .abort c i => some ((s.freed c i).done t 0)

def step : Event m n → State m n → Option (State m n)
  | .request t c, s => if s.pc t = .idle then some { s with pc := update s.pc t (.lock c) } else none
  | .abort t c, s => if s.pc t = .idle then some { s with pc := update s.pc t (.lockAbort c) } else none
  | .run t, s => runPc ctl chans s t (s.pc t)
  | .timeout t, s =>
    match s.pc t with
    | .blocked c since =>
      if since + waitTimeout ≤ s.jiffies then
        some { s with value := s.value + 1, pc := update s.pc t (.woken c since etimeout) }
      else none
    | _ => none
  | .tick, s => some { s with jiffies := s.jiffies + 1 }
  | .interrupt i, s =>
    match s.carried i, s.handler i with
    | _ :: _, some c => some (s.freed c i).broadcast
    | _, _ => none

def Step (e : Event m n) (s s' : State m n) : Prop := step ctl chans e s = some s'

/-! ## what a waiting call relies on -/

/-- A call has seen that stream `i` of its device is busy, and does not look again. -/
def Pc.Relies (i : Nat) : Pc n → Prop
  | .search c true k => i ∈ streams ctl chans c ∧ i < k
  | .search c false _ | .wait c | .blocked c _ => i ∈ streams ctl chans c
  | _ => False

instance (i : Nat) : ∀ pc : Pc n, Decidable (pc.Relies ctl chans i)
  | .search _ true _ => inferInstanceAs (Decidable (_ ∧ _))
  | .search _ false _ | .wait _ | .blocked _ _ => inferInstanceAs (Decidable (_ ∈ _))
  | .idle | .lock _ | .start _ _ | .woken _ _ _ | .lockAbort _ | .abort _ _ => inferInstanceAs (Decidable False)

def Pc.isBlocked : Pc n → Bool
  | .blocked _ _ => true
  | _ => false

/-- A stream is freed only when no call relies on it. -/
def Unneeded (s : State m n) (i : Nat) : Prop := ∀ t, ¬ (s.pc t).Relies ctl chans i

/-- The condition on one operation of a thread. -/
def CarefulPc (s : State m n) : Pc n → Prop
  | .start c _ => ∀ i < ctl.nchns, c ∉ s.carried i
  | .abort _ i => Unneeded ctl chans s i
  | _ => True

/-- A channel has one transfer at a time, no stream is freed that a call relies on, and no transfer is completed while
a thread waits. -/
def Careful (e : Event m n) (s : State m n) : Prop :=
  match e with
  | .run t => CarefulPc ctl chans s (s.pc t)
  | .interrupt i => Unneeded ctl chans s i ∧ ∀ t, (s.pc t).isBlocked = false
  | _ => True

instance (s : State m n) (i : Nat) : Decidable (Unneeded ctl chans s i) := inferInstanceAs (Decidable (∀ _, _))

instance (s : State m n) : ∀ pc, Decidable (CarefulPc ctl chans s pc)
  | .start _ _ => inferInstanceAs (Decidable (∀ i < _, _))
  | .abort _ i => inferInstanceAs (Decidable (Unneeded ctl chans s i))
  | .idle | .lock _ | .search _ _ _ | .wait _ | .blocked _ _ | .woken _ _ _ | .lockAbort _ =>
    inferInstanceAs (Decidable True)

instance : ∀ (e : Event m n) (s : State m n), Decidable (Careful ctl chans e s)
  | .run t, s => inferInstanceAs (Decidable (CarefulPc ctl chans s (s.pc t)))
  | .interrupt _, _ => inferInstanceAs (Decidable (_ ∧ _))
  | .request _ _, _ | .abort _ _, _ | .timeout _, _ | .tick, _ => inferInstanceAs (Decidable True)

/-! ## the invariant -/

/-- The operations made with the mutex locked. -/
def Pc.locks : Pc n → Bool
  | .search _ _ _ | .start _ _ | .abort _ _ => true
  | _ => false

def Pc.waits (pc : Pc n) : Nat := if pc.isBlocked then 1 else 0

/-- A stream carries nothing, or one transfer, which its channel records. -/
def Carries (s : State m n) (i : Nat) : Prop :=
  s.carried i = [] ∨
    ∃ c, s.carried i = [c] ∧ s.handled c = some i ∧ s.handler i = some c ∧ s.act i ≠ .idle ∧ i < ctl.nchns

/-- What a call knows at each operation. -/
def Known (s : State m n) : Pc n → Prop
  | .search c false k => ∀ i ∈ streams ctl chans c, i < k → ¬ Wanted ctl s false i
  | .start c i => s.act i = .idle ∧ i ∈ streams ctl chans c
  | .abort c i => s.handled c = some i ∨ s.handled c = none
  | .woken _ since err => err = etimeout ∧ since + waitTimeout ≤ s.jiffies
  | _ => True

structure At (s : State m n) (pc : Pc n) : Prop where
  busy : ∀ i, pc.Relies ctl chans i → s.act i ≠ .idle
  known : Known ctl chans s pc

structure Sound (s : State m n) : Prop where
  lock : ∀ t, (s.pc t).locks = true ↔ s.mtx = some t
  carries : ∀ i, Carries ctl s i
  value : s.value + tally Pc.waits s.pc = 0
  at_ : ∀ t, At ctl chans s (s.pc t)

variable {ctl chans} {s s' : State m n} {t : Fin m} {c : Fin n} {pc x : Pc n}

/-- Nothing is started. -/
theorem At.frame (h : At ctl chans s pc) (hact : ∀ i, s'.act i = s.act i ∨ s'.act i = .idle)
    (hbusy : ∀ i, pc.Relies ctl chans i → s'.act i = s.act i)
    (hhandled : ∀ c, s'.handled c = s.handled c ∨ s'.handled c = none) (hj : s.jiffies ≤ s'.jiffies) :
    At ctl chans s' pc := by
  refine ⟨fun i hi => hbusy i hi ▸ h.busy i hi, ?_⟩
  have hk := h.known
  cases pc with
  | search c unused k =>
    cases unused with
    | true => trivial
    | false =>
      intro i hi hlt hw
      refine hk i hi hlt ?_
      refine hw.imp id fun hsingle => ?_
      rcases hact i with heq | hidle
      · exact heq ▸ hsingle
      · rw [hidle] at hsingle
        cases hsingle
  | start c i =>
    refine ⟨?_, hk.2⟩
    rcases hact i with heq | hidle
    · rw [heq, hk.1]
    · exact hidle
  | abort c i =>
    rcases hhandled c with heq | hnone
    · exact hk.imp heq.trans heq.trans
    · exact .inr hnone
  | woken c since err => exact ⟨hk.1, Nat.le_trans hk.2 hj⟩
  | idle | lock _ | wait _ | blocked _ _ | lockAbort _ => trivial

/-- A call without the mutex does not mind what is started. -/
theorem At.unlocked (h : At ctl chans s pc) (hl : pc.locks = false) (hact : ∀ i, s.act i ≠ .idle → s'.act i ≠ .idle)
    (hj : s'.jiffies = s.jiffies) : At ctl chans s' pc := by
  refine ⟨fun i hi => hact i (h.busy i hi), ?_⟩
  have hk := h.known
  cases pc with
  | search _ _ _ | start _ _ | abort _ _ => cases hl
  | woken c since err => exact ⟨hk.1, hj ▸ hk.2⟩
  | idle | lock _ | wait _ | blocked _ _ | lockAbort _ => trivial

/-- What an operation from `y` to `x` does with the mutex. -/
inductive Handover (s : State m n) (t : Fin m) (y x : Pc n) : Option (Fin m) → Prop
  | keeps (hl : x.locks = y.locks) : Handover s t y x s.mtx
  | takes (hm : s.mtx = none) (hl : x.locks = true) : Handover s t y x (some t)
  | gives (hm : s.mtx = none ∨ s.mtx = some t) (hl : x.locks = false) : Handover s t y x none

/-- The mutex is still with the thread that makes operations with it. -/
theorem Handover.lock {y : Pc n} {mtx : Option (Fin m)} (hm : Handover s t y x mtx) (hpc : s.pc t = y)
    (h : ∀ u, (s.pc u).locks = true ↔ s.mtx = some u) (u : Fin m) :
    (update s.pc t x u).locks = true ↔ mtx = some u := by
  have hold := h u
  by_cases hu : u = t
  · subst hu
    rw [update_self]
    cases hm with
    | keeps hl => rw [hl, ← hpc, hold]
    | takes _ hl => simp only [hl]
    | gives _ hl => simp only [hl, Bool.false_eq_true, reduceCtorEq]
  · rw [update_of_ne hu, hold]
    have hne : t ≠ u := Ne.symm hu
    cases hm with
    | keeps => rfl
    | takes hm => simp only [hm, reduceCtorEq, Option.some.injEq, hne]
    | gives hm => rcases hm with hm | hm <;> simp only [hm, reduceCtorEq, Option.some.injEq, hne]

/-- A call at rest knows nothing. -/
theorem at_idle (s : State m n) : At ctl chans s .idle := ⟨fun _ hi => hi.elim, trivial⟩

/-- A search begins: nothing is seen. -/
theorem at_search (s : State m n) (c : Fin n) : At ctl chans s (.search c true 0) :=
  ⟨fun i hi => absurd hi.2 (Nat.not_lt_zero i), trivial⟩

namespace Sound

variable {y : Pc n}

section

variable (h : Sound ctl chans s)

include h

/-- Thread `t` makes an operation. -/
theorem move (hpc : s.pc t = y) (hpc' : s'.pc = update s.pc t x) (hc : ∀ i, Carries ctl s' i)
    (hothers : ∀ u ≠ t, At ctl chans s (s.pc u) → At ctl chans s' (s.pc u)) (hx : At ctl chans s' x)
    (hval : s'.value + x.waits = s.value + y.waits) (hm : Handover s t y x s'.mtx) : Sound ctl chans s' := by
  refine ⟨fun u => ?_, hc, ?_, fun u => ?_⟩
  · rw [hpc']
    exact hm.lock hpc h.lock u
  · have htally := tally_update Pc.waits s.pc t x
    have := h.value
    rw [hpc] at htally
    rw [hpc']
    omega
  · rw [hpc']
    by_cases hu : u = t
    · subst hu
      rw [update_self]
      exact hx
    · rw [update_of_ne hu]
      exact hothers u hu (h.at_ u)

/-- An operation that changes no stream and no channel. -/
theorem passes (hpc : s.pc t = y) (x : Pc n) (hx : At ctl chans s x) {v : Int}
    (hval : v + x.waits = s.value + y.waits) {mtx : Option (Fin m)} (hm : Handover s t y x mtx) (r : Fin m → Int) :
    Sound ctl chans { s with mtx := mtx, value := v, pc := update s.pc t x, result := r } := by
  have hsame : ∀ {pc : Pc n}, At ctl chans s pc →
      At ctl chans { s with mtx := mtx, value := v, pc := update s.pc t x, result := r } pc :=
    fun hat => hat.frame (fun _ => .inl rfl) (fun _ _ => rfl) (fun _ => .inl rfl) (Nat.le_refl _)
  exact h.move hpc rfl h.carries (fun _ _ => hsame) (hsame hx) hval hm

/-- A call returns with the mutex unlocked. -/
theorem returns (hpc : s.pc t = y) (hw : y.waits = 0)
    (hm : s.mtx = none ∨ s.mtx = some t) (err : Int) : Sound ctl chans (s.done t err) :=
  h.passes hpc .idle (at_idle s) (by rw [hw]; rfl) (.gives hm rfl) _

theorem mtx_eq (hpc : s.pc t = y) (hl : y.locks = true) : s.mtx = some t :=
  (h.lock t).mp (hpc ▸ hl)

theorem search {unused : Bool} {k : Nat} (hpc : s.pc t = .search c unused k) :
    Sound ctl chans (search ctl chans s t c unused k) := by
  have hm := h.mtx_eq hpc rfl
  have hat := h.at_ t
  rw [hpc] at hat
  -- the streams seen so far, and the one that is not wanted
  have hnext : ¬ (k ∈ streams ctl chans c ∧ Wanted ctl s unused k) → At ctl chans s (.search c unused (k + 1)) := by
    intro hnot
    cases unused with
    | true =>
      refine ⟨fun i hi => ?_, trivial⟩
      rcases Nat.lt_succ_iff_lt_or_eq.mp hi.2 with hlt | rfl
      · exact hat.busy i ⟨hi.1, hlt⟩
      · exact fun hidle => hnot ⟨hi.1, hidle⟩
    | false =>
      refine ⟨hat.busy, fun i hi hlt hwanted => ?_⟩
      rcases Nat.lt_succ_iff_lt_or_eq.mp hlt with hlt | rfl
      · exact hat.known i hi hlt hwanted
      · exact hnot ⟨hi, hwanted⟩
  unfold Dma.search
  split
  next => exact h.returns hpc rfl (.inr hm) inval
  next =>
    split
    next hk =>
      split
      next hfound =>
        split
        next hu =>
          subst hu
          exact h.passes hpc (.start c k) ⟨fun _ hi => hi.elim, hfound.2, hfound.1⟩ rfl (.keeps rfl) _
        next hu =>
          rw [Bool.not_eq_true] at hu
          subst hu
          exact h.passes hpc (.wait c) ⟨hat.busy, trivial⟩ rfl (.gives (.inr hm) rfl) _
      next hnot => exact h.passes hpc (.search c unused (k + 1)) (hnext hnot) rfl (.keeps rfl) _
    next hk =>
      split
      next hu =>
        subst hu
        refine h.passes hpc (.search c false 0) ⟨fun i hi => hat.busy i ⟨hi, ?_⟩, ?_⟩ rfl (.keeps rfl) _
        · have := (List.mem_filter.mp hi).2
          rw [decide_eq_true_eq] at this
          omega
        · exact fun i _ hlt => absurd hlt (Nat.not_lt_zero i)
      next => exact h.returns hpc rfl (.inr hm) noent

/-- The transfer is put on the free stream. -/
theorem start {i : Nat} (hpc : s.pc t = .start c i)
    (hone : ∀ j < ctl.nchns, c ∉ s.carried j) {bsy : Bsy} (hbsy : bsy ≠ .idle) :
    Sound ctl chans ((s.started c i bsy).done t 0) := by
  have hm := h.mtx_eq hpc rfl
  have hat := (h.at_ t).known
  rw [hpc] at hat
  obtain ⟨hidle, hi⟩ := hat
  have hempty : s.carried i = [] := (h.carries i).resolve_right fun ⟨_, _, _, _, hact, _⟩ => hact hidle
  have hlt : i < ctl.nchns := by simpa using (List.mem_filter.mp hi).2
  refine h.move hpc rfl (fun j => ?_) (fun u hu hatu => ?_) (at_idle _) rfl (.gives (.inr hm) rfl)
  · by_cases hj : j = i
    · subst hj
      refine .inr ⟨c, ?_, ?_, ?_, ?_, hlt⟩ <;> simp [State.done, State.started, hempty, hbsy]
    · rcases h.carries j with hnone | ⟨c', hc', hh, hr, ha, hjlt⟩
      · left
        simpa [State.done, State.started, update_of_ne hj] using hnone
      · have hne : c' ≠ c := by
          rintro rfl
          exact hone j hjlt (by rw [hc']; exact List.mem_cons_self)
        refine .inr ⟨c', ?_, ?_, ?_, ?_, hjlt⟩ <;>
          simpa [State.done, State.started, update_of_ne hj, update_of_ne hne]
  · -- nobody else has the mutex
    have hul : (s.pc u).locks = false := by
      rw [Bool.eq_false_iff]
      exact fun hul => hu (Option.some.inj ((h.mtx_eq rfl hul).symm.trans hm))
    refine hatu.unlocked hul (fun j hj => ?_) rfl
    by_cases hji : j = i
    · subst hji
      exact absurd hidle hj
    · simpa [State.done, State.started, update_of_ne hji] using hj

theorem carries_freed {i : Nat} (hc : s.handled c = some i ∨ s.handled c = none) (j : Nat) :
    Carries ctl (s.freed c i) j := by
  by_cases hj : j = i
  · subst hj
    exact .inl (update_self ..)
  · rcases h.carries j with hnone | ⟨c', hc', hh, hr, ha, hlt⟩
    · exact .inl ((update_of_ne hj ..).trans hnone)
    · have hne : c' ≠ c := by
        rintro rfl
        rcases hc with heq | heq <;> rw [heq] at hh
        · exact hj (Option.some.inj hh).symm
        · cases hh
      refine .inr ⟨c', ?_, ?_, ?_, ?_, hlt⟩ <;>
        simpa [State.freed, update_of_ne hj, update_of_ne hne]

end

theorem at_freed {i : Nat} (hrel : ¬ pc.Relies ctl chans i) (h : At ctl chans s pc) :
    At ctl chans (s.freed c i) pc := by
  refine h.frame (fun j => ?_) (fun j hj => ?_) (fun c' => ?_) (Nat.le_refl _)
  · by_cases hj : j = i
    · subst hj
      exact .inr (update_self ..)
    · exact .inl (update_of_ne hj ..)
  · refine update_of_ne ?_ ..
    rintro rfl
    exact hrel hj
  · by_cases hc : c' = c
    · subst hc
      exact .inr (update_self ..)
    · exact .inl (update_of_ne hc ..)

section

variable (h : Sound ctl chans s)

include h

theorem abort {i : Nat} (hpc : s.pc t = .abort c i) (hfree : Unneeded ctl chans s i) :
    Sound ctl chans ((s.freed c i).done t 0) := by
  have hm := h.mtx_eq hpc rfl
  have hat := (h.at_ t).known
  rw [hpc] at hat
  refine h.move hpc rfl (h.carries_freed hat) (fun u _ hatu => ?_) (at_idle _) rfl (.gives (.inr hm) rfl)
  have hu := at_freed (c := c) (hfree u) hatu
  exact hu.frame (fun _ => .inl rfl) (fun _ _ => rfl) (fun _ => .inl rfl) (Nat.le_refl _)

/-- No thread waits when a transfer is completed, so that nobody is woken. -/
theorem interrupt {i : Nat} (hc : s.carried i ≠ []) (hr : s.handler i = some c)
    (hfree : Unneeded ctl chans s i) (hblocked : ∀ t, (s.pc t).isBlocked = false) :
    Sound ctl chans (s.freed c i).broadcast := by
  obtain ⟨c', hc', hh, hr', -, -⟩ := (h.carries i).resolve_left hc
  obtain rfl : c' = c := Option.some.inj (hr'.symm.trans hr)
  have hpc : (fun u => (s.pc u).reset) = s.pc := by
    funext u
    have := hblocked u
    cases hu : s.pc u <;> rw [hu] at this <;> first | rfl | cases this
  have hzero : tally Pc.waits s.pc = 0 := by
    by_contra hne
    obtain ⟨u, hu⟩ := exists_of_tally_pos (Nat.pos_of_ne_zero hne)
    simp [Pc.waits, hblocked u] at hu
  refine ⟨fun u => ?_, h.carries_freed (.inl hh), ?_, fun u => ?_⟩
  · exact (iff_of_eq (congrArg (fun f => (f u).locks = true) hpc)).trans (h.lock u)
  · have hv : (0 : Int) + tally Pc.waits (fun u => (s.pc u).reset) = 0 := by
      rw [hpc, hzero]
      rfl
    exact hv
  · have hat := at_freed (c := c') (hfree u) (h.at_ u)
    rw [show (s.freed c' i).broadcast.pc u = s.pc u from congrFun hpc u]
    exact hat.frame (fun _ => .inl rfl) (fun _ _ => rfl) (fun _ => .inl rfl) (Nat.le_refl _)

theorem value_le : s.value ≤ 0 := by
  have := h.value
  omega

theorem runPc (hpc : s.pc t = pc) (hs : runPc ctl chans s t pc = some s') (hc : CarefulPc ctl chans s pc) :
    Sound ctl chans s' := by
  have hat := h.at_ t
  rw [hpc] at hat
  cases pc with
  | idle | blocked _ _ => cases hs
  | lock c =>
    rw [Dma.runPc] at hs
    split at hs
    · cases hs
      exact h.passes hpc .idle (at_idle s) rfl (.keeps rfl) _
    · obtain ⟨hm, rfl⟩ := of_guard hs
      exact h.passes hpc (.search c true 0) (at_search s c) rfl (.takes hm rfl) _
  | search c unused k =>
    cases hs
    exact h.search hpc
  | start c i =>
    rw [Dma.runPc] at hs
    split at hs
    · cases hs
      exact h.start hpc hc (by split <;> simp)
    · cases hs
      exact h.returns hpc rfl (.inr (h.mtx_eq hpc rfl)) inval
  | wait c =>
    have hv := h.value_le
    rw [Dma.runPc, if_neg (by omega)] at hs
    cases hs
    exact h.passes hpc (.blocked c s.jiffies) ⟨hat.busy, trivial⟩ (by simp [Pc.waits, Pc.isBlocked]) (.keeps rfl) _
  | woken c since err =>
    rw [Dma.runPc] at hs
    split at hs
    · cases hs
      exact h.passes hpc .idle (at_idle s) rfl (.keeps rfl) _
    · obtain ⟨hm, hs⟩ := Option.ite_none_right_eq_some.mp hs
      split at hs
      · cases hs
        exact h.returns hpc rfl (.inl hm) err
      · cases hs
        exact h.passes hpc (.search c true 0) (at_search s c) rfl (.takes hm rfl) _
  | lockAbort c =>
    rw [Dma.runPc] at hs
    obtain ⟨hm, hs⟩ := Option.ite_none_right_eq_some.mp hs
    split at hs
    next =>
      cases hs
      exact h.returns hpc rfl (.inl hm) noent
    next i hh =>
      cases hs
      exact h.passes hpc (.abort c i) ⟨fun _ hi => hi.elim, .inl hh⟩ rfl (.takes hm rfl) _
  | abort c i =>
    cases hs
    exact h.abort hpc hc

theorem step {e : Event m n} (hs : Meeting (Step ctl chans) (Careful ctl chans) e s s') :
    Sound ctl chans s' := by
  obtain ⟨hs, hc⟩ := hs
  cases e with
  | request t c =>
    obtain ⟨hpc, rfl⟩ := of_guard hs
    exact h.passes hpc (.lock c) ⟨fun _ hi => hi.elim, trivial⟩ rfl (.keeps rfl) _
  | abort t c =>
    obtain ⟨hpc, rfl⟩ := of_guard hs
    exact h.passes hpc (.lockAbort c) ⟨fun _ hi => hi.elim, trivial⟩ rfl (.keeps rfl) _
  | run t => exact h.runPc rfl hs hc
  | timeout t =>
    simp only [Step, Dma.step] at hs
    split at hs
    next c since hpc =>
      obtain ⟨htime, rfl⟩ := of_guard hs
      exact h.passes hpc (.woken c since etimeout) ⟨fun _ hi => hi.elim, rfl, htime⟩
        (by simp [Pc.waits, Pc.isBlocked]) (.keeps rfl) _
    next => cases hs
  | tick =>
    cases hs
    exact ⟨h.lock, h.carries, h.value, fun t => (h.at_ t).frame (fun _ => .inl rfl) (fun _ _ => rfl) (fun _ => .inl rfl)
      (Nat.le_succ _)⟩
  | interrupt i =>
    simp only [Step, Dma.step] at hs
    split at hs
    next c' l c hcarried hr =>
      cases hs
      exact h.interrupt (by rw [hcarried]; exact List.cons_ne_nil _ _) hr hc.1 hc.2
    next => cases hs

end

theorem init (handled : Fin n → Option Nat) : Sound ctl chans ({ handled := handled } : State m n) := by
  refine ⟨fun t => ?_, fun i => .inl rfl, ?_, fun t => ⟨fun _ hi => hi.elim, trivial⟩⟩
  · exact ⟨fun hl => absurd hl Bool.false_ne_true, fun hm => absurd hm (Option.some_ne_none t).symm⟩
  · have hzero : tally Pc.waits (fun _ : Fin m => (.idle : Pc n)) = 0 := tally_const_zero rfl
    exact congrArg (fun k : Nat => (0 : Int) + k) hzero

end Sound

/-! ## what a request returns -/

/-- The channel of a request in progress. -/
def Pc.request : Pc n → Option (Fin n)
  | .lock c | .search c _ _ | .start c _ | .wait c | .blocked c _ | .woken c _ _ => some c
  | .idle | .lockAbort _ | .abort _ _ => none

variable (ctl chans) in
/-- Success, the timeout code after the time to wait, or the code of a request that cannot be served: of an invalid
one, or of one for a device whose streams have continuous transfers, if it has any. -/
def Answer (s : State m n) (t : Fin m) (c : Fin n) (err : Int) : Prop :=
  err = 0 ∨
    (err = etimeout ∧ ∃ since, s.pc t = .woken c since etimeout ∧ since + waitTimeout ≤ s.jiffies) ∨
    (err = inval ∧ (ctl.map.length ≤ (chans c).device ∨ (chans c).valid = false)) ∨
    (err = notSupported ∧ ctl.version = .v1 ∧ (chans c).continuous = true) ∨
    (err = noent ∧ ∀ i ∈ streams ctl chans c, s.act i = .continous)

/-- Each operation of a call brings it nearer to its end. -/
def Pc.rank (N : Nat) : Pc n → Nat
  | .idle => 0
  | .lock _ => 2 * N + 7
  | .search _ true k => (N - k) + N + 6
  | .search _ false k => (N - k) + 5
  | .wait _ => 3
  | .blocked _ _ => 2
  | .start _ _ | .woken _ _ _ => 1
  | .lockAbort _ => 2
  | .abort _ _ => 1

/-- A search that ends with a code gives it for a reason. -/
theorem search_answer (h : Sound ctl chans s) {unused : Bool} {k : Nat} (hpc : s.pc t = .search c unused k)
    (hidle : (search ctl chans s t c unused k).pc t = .idle) :
    Answer ctl chans s t c ((search ctl chans s t c unused k).result t) := by
  have hat := h.at_ t
  rw [hpc] at hat
  unfold search at hidle ⊢
  split at hidle
  next hdev =>
    rw [if_pos hdev]
    exact .inr (.inr (.inl ⟨update_self .., .inl hdev⟩))
  next hdev =>
    rw [if_neg hdev]
    split at hidle
    next hk =>
      split at hidle
      next => split at hidle <;> exact absurd hidle (by simp)
      next => exact absurd hidle (by simp)
    next hk =>
      split at hidle
      next => exact absurd hidle (by simp)
      next hu =>
        rw [Bool.not_eq_true] at hu
        subst hu
        rw [if_neg hk, if_neg Bool.false_ne_true]
        refine .inr (.inr (.inr (.inr ⟨update_self .., fun i hi => ?_⟩)))
        have hlt : i < ctl.nchns := by simpa using (List.mem_filter.mp hi).2
        have hnot := hat.known i hi (by omega)
        have hbusy := hat.busy i hi
        cases hact : s.act i with
        | idle => exact absurd hact hbusy
        | single => exact absurd (.inr hact) hnot
        | continous => rfl

variable (ctl chans) in
theorem search_pc (s : State m n) (t : Fin m) (c : Fin n) (unused : Bool) (k : Nat) :
    ∃ x, (search ctl chans s t c unused k).pc = update s.pc t x ∧
      x.rank ctl.nchns < (Pc.search c unused k).rank ctl.nchns := by
  unfold search
  split
  · exact ⟨.idle, rfl, by cases unused <;> exact Nat.succ_pos _⟩
  · split
    · split
      · split
        · exact ⟨.start c k, rfl, by cases unused <;> simp [Pc.rank]⟩
        · exact ⟨.wait c, rfl, by cases unused <;> simp only [Pc.rank] <;> omega⟩
      · exact ⟨.search c unused (k + 1), rfl, by cases unused <;> simp only [Pc.rank] <;> omega⟩
    · split
      next hu =>
        subst hu
        exact ⟨.search c false 0, rfl, by simp only [Pc.rank]; omega⟩
      next => exact ⟨.idle, rfl, by cases unused <;> exact Nat.succ_pos _⟩

/-- An operation of a thread changes where this thread is, and a call that does not wait for long comes nearer to its
end. -/
theorem runPc_pc (hs : runPc ctl chans s t pc = some s') :
    ∃ x, s'.pc = update s.pc t x ∧
      ((∀ c since err, pc = .woken c since err → err < 0) → x.rank ctl.nchns < pc.rank ctl.nchns) := by
  cases pc with
  | idle | blocked _ _ => cases hs
  | lock c =>
    rw [runPc] at hs
    split at hs
    · cases hs
      exact ⟨.idle, rfl, fun _ => Nat.succ_pos _⟩
    · obtain ⟨-, rfl⟩ := of_guard hs
      exact ⟨.search c true 0, rfl, fun _ => by simp only [Pc.rank]; omega⟩
  | search c unused k =>
    cases hs
    obtain ⟨x, hpc, hrank⟩ := search_pc ctl chans s t c unused k
    exact ⟨x, hpc, fun _ => hrank⟩
  | start c i =>
    rw [runPc] at hs
    split at hs <;> cases hs <;> exact ⟨.idle, rfl, fun _ => Nat.succ_pos _⟩
  | wait c =>
    rw [runPc] at hs
    split at hs
    · cases hs
      exact ⟨.woken c s.jiffies 0, rfl, fun _ => by simp only [Pc.rank]; omega⟩
    · cases hs
      exact ⟨.blocked c s.jiffies, rfl, fun _ => by simp only [Pc.rank]; omega⟩
  | woken c since err =>
    rw [runPc] at hs
    split at hs
    · cases hs
      exact ⟨.idle, rfl, fun _ => Nat.succ_pos _⟩
    · obtain ⟨-, hs⟩ := Option.ite_none_right_eq_some.mp hs
      split at hs
      · cases hs
        exact ⟨.idle, rfl, fun _ => Nat.succ_pos _⟩
      next hneg =>
        cases hs
        exact ⟨.search c true 0, rfl, fun herr => absurd (herr c since err rfl) hneg⟩
  | lockAbort c =>
    rw [runPc] at hs
    obtain ⟨-, hs⟩ := Option.ite_none_right_eq_some.mp hs
    split at hs
    · cases hs
      exact ⟨.idle, rfl, fun _ => Nat.succ_pos _⟩
    next i _ =>
      cases hs
      exact ⟨.abort c i, rfl, fun _ => by simp only [Pc.rank]; omega⟩
  | abort c i =>
    cases hs
    exact ⟨.idle, rfl, fun _ => Nat.succ_pos _⟩

/-- What a step does to a call in progress. -/
theorem call_cases {e : Event m n} (hs : Meeting (Step ctl chans) (Careful ctl chans) e s s') (hbusy : s.pc t ≠ .idle) :
    s'.pc t = s.pc t ∨ runPc ctl chans s t (s.pc t) = some s' ∨
      ∃ c since, s.pc t = .blocked c since ∧ s'.pc t = .woken c since etimeout := by
  obtain ⟨hs, hc⟩ := hs
  cases e with
  | request u c | abort u c =>
    obtain ⟨hpc, rfl⟩ := of_guard hs
    have hu : t ≠ u := by
      rintro rfl
      exact hbusy hpc
    exact .inl (update_of_ne hu ..)
  | run u =>
    by_cases hu : u = t
    · subst hu
      exact .inr (.inl hs)
    · obtain ⟨x, hpc, -⟩ := runPc_pc hs
      exact .inl (by rw [hpc, update_of_ne (Ne.symm hu)])
  | timeout u =>
    simp only [Step, step] at hs
    split at hs
    next c since hpc =>
      obtain ⟨-, rfl⟩ := of_guard hs
      by_cases hu : u = t
      · subst hu
        exact .inr (.inr ⟨c, since, hpc, update_self ..⟩)
      · exact .inl (update_of_ne (Ne.symm hu) ..)
    next => cases hs
  | tick =>
    cases hs
    exact .inl rfl
  | interrupt i =>
    simp only [Step, step] at hs
    split at hs
    next =>
      cases hs
      have hblocked := hc.2 t
      left
      change (s.pc t).reset = s.pc t
      cases hpc : s.pc t <;> rw [hpc] at hblocked <;> first | rfl | cases hblocked
    next => cases hs

/-- A call in progress comes nearer to its end whenever it goes on. -/
theorem Sound.rank_lt (h : Sound ctl chans s) {e : Event m n}
    (hs : Meeting (Step ctl chans) (Careful ctl chans) e s s') (hbusy : s.pc t ≠ .idle) (hmoved : s'.pc t ≠ s.pc t) :
    (s'.pc t).rank ctl.nchns < (s.pc t).rank ctl.nchns := by
  rcases call_cases hs hbusy with hsame | hrun | ⟨c, since, hpc, hpc'⟩
  · exact absurd hsame hmoved
  · obtain ⟨x, hpc, hrank⟩ := runPc_pc hrun
    rw [hpc, update_self]
    refine hrank fun c since err hw => ?_
    have hk := (h.at_ t).known
    rw [hw] at hk
    rw [hk.1]
    decide
  · rw [hpc, hpc']
    exact Nat.lt_succ_self 1

/-- A call that does not wait goes on if it has the mutex or the mutex is free. -/
theorem runPc_some (hbusy : pc ≠ .idle) (hw : pc.isBlocked = false) (hm : pc.locks = true ∨ s.mtx = none) :
    ∃ s', runPc ctl chans s t pc = some s' := by
  cases pc with
  | idle => exact absurd rfl hbusy
  | blocked _ _ => cases hw
  | lock c =>
    have hm := hm.resolve_left Bool.false_ne_true
    rw [runPc, if_pos hm]
    split <;> exact ⟨_, rfl⟩
  | search c unused i => exact ⟨_, rfl⟩
  | start c i =>
    rw [runPc]
    split <;> exact ⟨_, rfl⟩
  | wait c =>
    rw [runPc]
    split <;> exact ⟨_, rfl⟩
  | woken c since err =>
    have hm := hm.resolve_left Bool.false_ne_true
    rw [runPc, if_pos hm]
    split
    · exact ⟨_, rfl⟩
    · split <;> exact ⟨_, rfl⟩
  | lockAbort c =>
    have hm := hm.resolve_left Bool.false_ne_true
    rw [runPc, if_pos hm]
    split <;> exact ⟨_, rfl⟩
  | abort c i => exact ⟨_, rfl⟩

/-- A call in progress waits, or can go on as soon as the thread with the mutex has. -/
theorem Sound.runs (h : Sound ctl chans s) (hbusy : s.pc t ≠ .idle) (hw : (s.pc t).isBlocked = false) :
    ∃ u, (u = t ∨ s.mtx = some u) ∧ ∃ s', Step ctl chans (.run u) s s' := by
  cases hm : s.mtx with
  | none => exact ⟨t, .inl rfl, runPc_some hbusy hw (.inr hm)⟩
  | some u =>
    have hl := (h.lock u).mpr hm
    refine ⟨u, .inr rfl, runPc_some (fun hidle => ?_) ?_ (.inl hl)⟩
    · rw [hidle] at hl
      cases hl
    · cases hpc : s.pc u <;> first | rfl | (rw [hpc] at hl; cases hl)

/-- An operation that ends a request gives its answer. -/
theorem Sound.runPc_answer (h : Sound ctl chans s) (hpc : s.pc t = pc) (hrun : Dma.runPc ctl chans s t pc = some s')
    (hr : pc.request = some c) (hidle : s'.pc t = .idle) : Answer ctl chans s t c (s'.result t) := by
  cases pc with
  | idle | lockAbort _ | abort _ _ => cases hr
  | blocked _ _ => cases hrun
  | lock c' =>
    cases hr
    rw [Dma.runPc] at hrun
    split at hrun
    next hv1 =>
      cases hrun
      exact .inr (.inr (.inr (.inl ⟨update_self .., hv1⟩)))
    next =>
      obtain ⟨-, rfl⟩ := of_guard hrun
      exact absurd hidle (by simp)
  | search c' unused k =>
    cases hr
    cases hrun
    exact search_answer h hpc hidle
  | start c' i =>
    cases hr
    rw [Dma.runPc] at hrun
    split at hrun
    next =>
      cases hrun
      exact .inl (update_self ..)
    next hvalid =>
      cases hrun
      exact .inr (.inr (.inl ⟨update_self .., .inr (Bool.not_eq_true _ ▸ hvalid)⟩))
  | wait c' =>
    rw [Dma.runPc] at hrun
    split at hrun <;> cases hrun <;> exact absurd hidle (by simp)
  | woken c' since err =>
    cases hr
    have hk := (h.at_ t).known
    rw [hpc] at hk
    obtain ⟨rfl, htime⟩ := hk
    have hanswer : Answer ctl chans s t c etimeout := .inr (.inl ⟨rfl, since, hpc, htime⟩)
    rw [Dma.runPc] at hrun
    split at hrun
    next =>
      cases hrun
      simpa using hanswer
    next =>
      obtain ⟨-, hrun⟩ := Option.ite_none_right_eq_some.mp hrun
      rw [if_pos (by decide)] at hrun
      cases hrun
      simpa [State.done] using hanswer

theorem Sound.answer (h : Sound ctl chans s) {e : Event m n}
    (hs : Meeting (Step ctl chans) (Careful ctl chans) e s s') (hr : (s.pc t).request = some c)
    (hidle : s'.pc t = .idle) : Answer ctl chans s t c (s'.result t) := by
  have hbusy : s.pc t ≠ .idle := fun heq => by rw [heq] at hr; cases hr
  rcases call_cases hs hbusy with hsame | hrun | ⟨_, _, -, hpc'⟩
  · exact absurd (hsame.symm.trans hidle) hbusy
  · exact h.runPc_answer rfl hrun hr hidle
  · exact absurd (hpc'.symm.trans hidle) (by simp)

/-- **Streams are given to one transfer at a time**: on either controller, and whatever the channels record at first, as
long as a channel starts a transfer only after its last one, no stream is freed that a request saw busy and relies on
and no transfer is completed while a thread waits: a stream carries one transfer at most and its channel records it;
all streams of the device of a waiting thread are busy; a request returns success or, after the time to wait, the
timeout code, unless it cannot be served; and it returns, since each of its operations brings it nearer to its end and
only a wait or the thread with the mutex, which can go on, holds it up. -/
theorem streams_carry_one_transfer (ctl : Controller) (chans : Fin n → Channel) (handled : Fin n → Option Nat)
    (hr : Run (Meeting (Step ctl chans) (Careful ctl chans)) ({ handled := handled } : State m n) s) :
    (∀ i, s.carried i = [] ∨ ∃ c, s.carried i = [c] ∧ s.handled c = some i) ∧
      (∀ t c since, s.pc t = .blocked c since → ∀ i ∈ streams ctl chans c, s.act i ≠ .idle) ∧
      (∀ e s', Meeting (Step ctl chans) (Careful ctl chans) e s s' → ∀ t c, (s.pc t).request = some c →
        (s'.pc t = .idle → Answer ctl chans s t c (s'.result t)) ∧
          (s'.pc t ≠ s.pc t → (s'.pc t).rank ctl.nchns < (s.pc t).rank ctl.nchns)) ∧
      ∀ t, s.pc t ≠ .idle → (s.pc t).isBlocked = false →
        ∃ u, (u = t ∨ s.mtx = some u) ∧ ∃ s', Step ctl chans (.run u) s s' := by
  have h : Sound ctl chans s := hr.keeps (fun _ _ _ h hs => h.step hs) (.init handled)
  refine ⟨fun i => ?_, fun t c since hpc i hi => ?_, fun e s' hs t c hreq => ⟨h.answer hs hreq, ?_⟩, fun t => h.runs⟩
  · exact (h.carries i).imp id fun ⟨c, hc, hh, _⟩ => ⟨c, hc, hh⟩
  · have hat := h.at_ t
    rw [hpc] at hat
    exact hat.busy i hi
  · exact h.rank_lt hs fun heq => by rw [heq] at hreq; cases hreq

end Controller

/-- Two channels of one device. -/
def pair (device : Nat) (_ : Fin 2) : Channel := { device := device }

/-- A thread requests a transfer while the only stream of the device is busy, and times out. -/
def timedOut : Reached (Meeting (Step stm32DmaV2 (pair 3)) (Careful stm32DmaV2 (pair 3)))
    ({ handled := fun _ => some 0 } : State 2 2) fun s => s.result 1 = etimeout ∧ s.carried 3 = [0] ∧ s.pc 1 = .idle :=
  reached (meeting_of_guarded fun _ _ _ => id)
    (.request 0 0 :: List.replicate 6 (.run 0) ++ .request 1 1 :: List.replicate 23 (.run 1) ++
      List.replicate 5000 .tick ++ [.timeout 1, .run 1])
    (by decide +kernel)

theorem timedOut_carries_one :
    (∀ i, timedOut.state.carried i = [] ∨
      ∃ c, timedOut.state.carried i = [c] ∧ timedOut.state.handled c = some i) ∧
      ∀ t c since, timedOut.state.pc t = .blocked c since →
        ∀ i ∈ streams stm32DmaV2 (pair 3) c, timedOut.state.act i ≠ .idle :=
  have h := streams_carry_one_transfer stm32DmaV2 (pair 3) (fun _ => some 0) timedOut.run
  ⟨h.1, h.2.1⟩

/-- On both controllers a thread waits for the only stream of its device.  When the transfer is completed, the reset of
the semaphore gives it `ISIX_ERESET`, which the request returns; when the transfer is completed before the thread
waits, it is blocked while the stream is free. -/
theorem waiting_fails :
    (∃ s : State 2 2, Run (Step stm32DmaV1 (pair 1)) { handled := fun _ => none } s ∧
      s.result 1 = ereset ∧ s.pc 1 = .idle ∧ s.act 0 = .idle) ∧
    (∃ s : State 2 2, Run (Step stm32DmaV2 (pair 3)) { handled := fun _ => none } s ∧
      s.result 1 = ereset ∧ s.pc 1 = .idle ∧ s.act 3 = .idle) ∧
    (∃ s : State 2 2, Run (Step stm32DmaV1 (pair 1)) { handled := fun _ => none } s ∧
      s.pc 1 = .blocked 1 0 ∧ s.pc 0 = .idle ∧ s.act 0 = .idle) ∧
    ∃ s : State 2 2, Run (Step stm32DmaV2 (pair 3)) { handled := fun _ => none } s ∧
      s.pc 1 = .blocked 1 0 ∧ s.pc 0 = .idle ∧ s.act 3 = .idle := by
  refine ⟨?_, ?_, ?_, ?_⟩
  · exact exists_run (fun _ _ _ => id)
      (.request 0 0 :: List.replicate 3 (.run 0) ++ .request 1 1 :: List.replicate 11 (.run 1) ++
        [.interrupt 0, .run 1]) (by decide +kernel)
  · exact exists_run (fun _ _ _ => id)
      (.request 0 0 :: List.replicate 6 (.run 0) ++ .request 1 1 :: List.replicate 23 (.run 1) ++
        [.interrupt 3, .run 1]) (by decide +kernel)
  · exact exists_run (fun _ _ _ => id)
      (.request 0 0 :: List.replicate 3 (.run 0) ++ .request 1 1 :: List.replicate 10 (.run 1) ++
        [.interrupt 0, .run 1]) (by decide +kernel)
  · exact exists_run (fun _ _ _ => id)
      (.request 0 0 :: List.replicate 6 (.run 0) ++ .request 1 1 :: List.replicate 22 (.run 1) ++
        [.interrupt 3, .run 1]) (by decide +kernel)

end Isix.Periph.Dma
