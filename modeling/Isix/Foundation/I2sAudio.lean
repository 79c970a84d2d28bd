import Isix.Lib.Runs

/-!
# Isix.Foundation.I2sAudio

The buffers of the I2S audio device (`i2s_audio.cpp`).  A buffer is in the pool,
in one of the two fifos, with the bus or with the user; `m_mem_sem` counts the
free ones.  Any number of threads call the device, in steps that can interleave
at each operation on the semaphore, the pool and the fifos; the callbacks come
from the interrupt.

A call that holds a buffer, has taken a token and not yet the buffer, or has
given back a buffer and not yet the token, is seen in its `Pc`.
-/

namespace Isix.Foundation.I2sAudio

open Function (update update_self)
open Runs

/-- `c_mempool_cnt` and the capacity of the fifos -/
def mempoolCnt : Nat := 16
def fifoCap : Nat := 33

inductive Mode
  | waitConf
  | idle
  | sampling
  | stopWait
  | stopWait2
deriving DecidableEq

inductive Fifo
  | play
  | record
deriving DecidableEq

/-- What the token is for: a fifo that `start` supplies, and then the others, or `get_playback_stream`. -/
abbrev Job := Option (Fifo × List Fifo × Bool)

/-- The next operation of a thread. -/
inductive Pc
  | idle
  | token (job : Job)
  | alloc (job : Job)
  | supply (buf : Nat) (f : Fifo) (rest : List Fifo) (record : Bool)
  | launch (record : Bool)
  | starting
  | push (buf : Nat)
  | pop
  | free (buf : Nat)
  | signal
deriving DecidableEq

/-- `start` goes on with the next fifo, or starts the bus. -/
def Pc.next : List Fifo → Bool → Pc
  | [], record => .launch record
  | f :: rest, record => .token (some (f, rest, record))

structure State (m : Nat) where
  mode : Mode := .waitConf
  record : Bool := false
  pool : List Nat := List.range mempoolCnt
  tokens : Nat := mempoolCnt
  playFifo : List Nat := []
  recFifo : List Nat := []
  bus : List Nat := []
  user : List Nat := []
  pc : Fin m → Pc := fun _ => .idle

variable {m : Nat}

namespace State

/-- `mempool_free` and `signal_isr` -/
def release (s : State m) (b : Nat) : State m :=
  { s with pool := s.pool ++ [b], tokens := min mempoolCnt (s.tokens + 1) }

def fifo (s : State m) : Fifo → List Nat
  | .play => s.playFifo
  | .record => s.recFifo

def pushed (s : State m) (b : Nat) : Fifo → State m
  | .play => { s with playFifo := s.playFifo ++ [b] }
  | .record => { s with recFifo := s.recFifo ++ [b] }

/-- `play_callback`: what it returns goes to the bus -/
def playCallback (s : State m) (ptr : Option Nat) : State m :=
  if s.mode ≠ .sampling then s
  else
    let s := match ptr with
      | some b => { s with bus := s.bus.erase b }.release b
      | none => s
    match s.playFifo with
    | b :: rest => { s with playFifo := rest, bus := b :: s.bus }
    | [] => s

/-- The second part of `record_callback`: the bus gets a free buffer -/
def recordNext (s : State m) : State m :=
  if s.tokens = 0 then s
  else
    let s := { s with tokens := s.tokens - 1 }
    match s.pool with
    | b :: rest => { s with pool := rest, bus := b :: s.bus }
    | [] => s

/-- `record_callback` -/
def recordCallback (s : State m) (ptr : Option Nat) : State m :=
  if s.mode ≠ .sampling then s
  else
    match ptr with
    | some b =>
      if s.recFifo.length < fifoCap then { s with bus := s.bus.erase b, recFifo := s.recFifo ++ [b] }.recordNext else s
    | none => s.recordNext

/-- `error_callback`, by which the bus gives its buffers back; the second test is of `buf1`, too -/
def errorCallback (s : State m) (buf1 buf2 : Option Nat) : State m :=
  let s := { s with bus := (s.bus.diff buf1.toList).diff buf2.toList }
  let s := match buf1 with
    | none => s
    | some b =>
      let s := s.release b
      match buf2 with
      | some b' => s.release b'
      | none => { s with tokens := min mempoolCnt (s.tokens + 1) }
  match s.mode with
  | .stopWait => if s.record then { s with mode := .stopWait2 } else s
  | _ => s

/-- `discard_streams` -/
def discardStreams (s : State m) : State m :=
  let s := s.playFifo.foldl release { s with playFifo := [] }
  s.recFifo.foldl release { s with recFifo := [] }

end State

inductive Event (m : Nat)
  | streamConf
  | start (c : Fin m) (play record : Bool)
  | stop
  | getPlayback (c : Fin m)
  | getRecord (c : Fin m)
  | releasePlayback (c : Fin m) (b : Nat)
  | releaseRecord (c : Fin m) (b : Nat)
  /-- the next operation of a thread -/
  | run (c : Fin m)
  /-- it waits for a token, for room or for a buffer, and times out -/
  | timeout (c : Fin m)
  /-- the bus has started, or not -/
  | started (c : Fin m) (ok : Bool)
  | playCallback (ptr : Option Nat)
  | recordCallback (ptr : Option Nat)
  | errorCallback (buf1 buf2 : Option Nat)

/-- The next operation of thread `c`. -/
def runPc (s : State m) (c : Fin m) : Pc → Option (State m)
  | .token job => if 0 < s.tokens then some { s with tokens := s.tokens - 1, pc := update s.pc c (.alloc job) } else none
  | .alloc job =>
    match s.pool, job with
    | [], _ => some { s with pc := update s.pc c .idle }
    | b :: rest, none => some { s with pool := rest, user := b :: s.user, pc := update s.pc c .idle }
    | b :: rest, some (f, fs, record) => some { s with pool := rest, pc := update s.pc c (.supply b f fs record) }
  | .supply b f fs record =>
    if (s.fifo f).length < fifoCap then some { s.pushed b f with pc := update s.pc c (.next fs record) } else none
  | .launch record => some { s with mode := .sampling, record := record, pc := update s.pc c .starting }
  | .push b =>
    if s.playFifo.length < fifoCap then some { s.pushed b .play with pc := update s.pc c .idle } else none
  | .pop =>
    match s.recFifo with
    | b :: rest => some { s with recFifo := rest, user := b :: s.user, pc := update s.pc c .idle }
    | [] => none
  | .free b => some { s with pool := s.pool ++ [b], pc := update s.pc c .signal }
  | .signal => some { s with tokens := min mempoolCnt (s.tokens + 1), pc := update s.pc c .idle }
  | .idle | .starting => none

/-- A thread that waits gives up, also with a buffer in its hand. -/
def Pc.Waits (s : State m) : Pc → Prop
  | .token _ => s.tokens = 0
  | .supply _ f _ _ => fifoCap ≤ (s.fifo f).length
  | .push _ => fifoCap ≤ s.playFifo.length
  | .pop => s.recFifo = []
  | _ => False

instance (s : State m) : ∀ pc, Decidable (Pc.Waits s pc)
  | .token _ | .pop => inferInstanceAs (Decidable (_ = _))
  | .supply _ _ _ _ | .push _ => inferInstanceAs (Decidable (_ ≤ _))
  | .idle | .alloc _ | .launch _ | .starting | .free _ | .signal => inferInstanceAs (Decidable False)

def step : Event m → State m → Option (State m)
  | .streamConf, s => if s.mode = .idle ∨ s.mode = .waitConf then some { s with mode := .idle } else some s
  | .start c play record, s =>
    if s.pc c = .idle then
      if s.mode = .idle then
        let fifos := (if play then [Fifo.play, .play] else []) ++ if record then [.record, .record] else []
        some { s with pc := update s.pc c (.next fifos record) }
      else some s
    else none
  | .stop, s => if s.mode = .sampling then some { s with mode := .stopWait } else some s
  | .getPlayback c, s => if s.pc c = .idle then some { s with pc := update s.pc c (.token none) } else none
  | .getRecord c, s =>
    if s.pc c = .idle then
      if s.mode = .sampling then some { s with pc := update s.pc c .pop } else some s
    else none
  | .releasePlayback c b, s =>
    if s.pc c = .idle ∧ b ∈ s.user then
      some { s with
        user := s.user.erase b
        pc := update s.pc c (if s.mode = .sampling then .push b else .free b) }
    else none
  | .releaseRecord c b, s =>
    if s.pc c = .idle ∧ b ∈ s.user then some { s with user := s.user.erase b, pc := update s.pc c (.free b) } else none
  | .run c, s => runPc s c (s.pc c)
  | .timeout c, s => if (s.pc c).Waits s then some { s with pc := update s.pc c .idle } else none
  | .started c ok, s =>
    if s.pc c = .starting then
      if ok then some { s with pc := update s.pc c .idle }
      else some { s with mode := .idle, record := false, pc := update s.pc c .idle }
    else none
  | .playCallback ptr, s => if ∀ b ∈ ptr, b ∈ s.bus then some (s.playCallback ptr) else none
  | .recordCallback ptr, s => if ∀ b ∈ ptr, b ∈ s.bus then some (s.recordCallback ptr) else none
  | .errorCallback buf1 buf2, s =>
    if List.Subperm (buf1.toList ++ buf2.toList) s.bus then some (s.errorCallback buf1 buf2) else none

def Step (e : Event m) (s s' : State m) : Prop := step e s = some s'

/-! ## every buffer in one place -/

/-- Whether the buffer `b` is in the hand of a call. -/
def Pc.hand (b : Nat) : Pc → Nat
  | .supply b' _ _ _ | .push b' | .free b' => if b' = b then 1 else 0
  | _ => 0

/-- Whether a call has the token for a buffer that is still in the pool. -/
def Pc.claims : Pc → Nat
  | .alloc _ => 1
  | _ => 0

/-- Whether a call owes the token of a buffer that is in the pool again. -/
def Pc.owes : Pc → Nat
  | .signal => 1
  | _ => 0

/-- A call without a buffer and without a token -/
def Pc.Bare (x : Pc) : Prop := (∀ b, x.hand b = 0) ∧ x.claims = 0 ∧ x.owes = 0

/-- A call with the buffer `b` in its hand -/
def Pc.Holds (x : Pc) (b : Nat) : Prop := (∀ a, x.hand a = [b].count a) ∧ x.claims = 0 ∧ x.owes = 0

/-- How often `b` is in the pool, the fifos, with the bus or with the user. -/
def State.stored (s : State m) (b : Nat) : Nat :=
  s.pool.count b + s.playFifo.count b + s.recFifo.count b + s.bus.count b + s.user.count b

/-- The places a buffer is in. -/
def State.places (s : State m) (b : Nat) : Nat := s.stored b + tally (Pc.hand b) s.pc

structure Sound (s : State m) : Prop where
  places : ∀ b, s.places b = if b < mempoolCnt then 1 else 0
  tokens : s.tokens + tally Pc.claims s.pc + tally Pc.owes s.pc = s.pool.length

variable {l : List Nat}

/-- A list in which no buffer is twice is not longer than the pool. -/
theorem length_le (h : ∀ b, l.count b ≤ if b < mempoolCnt then 1 else 0) : l.length ≤ mempoolCnt := by
  have hnd : l.Nodup := List.nodup_iff_count_le_one.mpr fun b => Nat.le_trans (h b) (by split <;> omega)
  have hsub : l ⊆ List.range mempoolCnt := by
    intro b hb
    have hpos := List.count_pos_iff.mpr hb
    have hle := h b
    split at hle
    · exact List.mem_range.mpr ‹_›
    · omega
  simpa using (hnd.subperm hsub).length_le

namespace Sound

variable {s s' : State m}

section

variable (h : Sound s)

include h

theorem stored_le (b : Nat) : s.stored b ≤ if b < mempoolCnt then 1 else 0 := by
  have hp := h.places b
  unfold State.places at hp
  omega

theorem pool_le : s.pool.length ≤ mempoolCnt :=
  length_le fun b => Nat.le_trans (by unfold State.stored; omega) (h.stored_le b)

theorem playFifo_lt : s.playFifo.length < fifoCap :=
  Nat.lt_of_le_of_lt (length_le fun b => Nat.le_trans (by unfold State.stored; omega) (h.stored_le b)) (by decide)

theorem recFifo_lt : s.recFifo.length < fifoCap :=
  Nat.lt_of_le_of_lt (length_le fun b => Nat.le_trans (by unfold State.stored; omega) (h.stored_le b)) (by decide)

/-- The calls are as they were. -/
theorem keep (hpc : s'.pc = s.pc) (hb : ∀ b, s'.stored b = s.stored b)
    (ht : s'.tokens + s.pool.length = s.tokens + s'.pool.length) : Sound s' := by
  refine ⟨fun b => ?_, ?_⟩
  · rw [State.places, hb, hpc]
    exact h.places b
  · have := h.tokens
    rw [hpc]
    omega

/-- A call goes on. -/
theorem move {c : Fin m} {x : Pc} (hpc : s'.pc = update s.pc c x)
    (hb : ∀ b, s'.stored b + x.hand b = s.stored b + (s.pc c).hand b)
    (ht : s'.tokens + x.claims + x.owes + s.pool.length =
      s.tokens + (s.pc c).claims + (s.pc c).owes + s'.pool.length) : Sound s' := by
  refine ⟨fun b => ?_, ?_⟩
  · have hp := h.places b
    have htally := tally_update (Pc.hand b) s.pc c x
    have hmoved := hb b
    rw [State.places, hpc]
    unfold State.places at hp
    omega
  · have := h.tokens
    have hclaims := tally_update Pc.claims s.pc c x
    have howes := tally_update Pc.owes s.pc c x
    rw [hpc]
    omega

/-- There is room for the tokens of buffers that are not in the pool. -/
theorem tokens_le (hl : ∀ b, s.pool.count b + l.count b ≤ s.stored b) :
    s.tokens + l.length ≤ mempoolCnt := by
  have hle : (s.pool ++ l).length ≤ mempoolCnt := length_le fun b => by
    rw [List.count_append]
    exact Nat.le_trans (hl b) (h.stored_le b)
  have := h.tokens
  rw [List.length_append] at hle
  omega

/-- A buffer that left its place is put into the pool. -/
theorem released {b : Nat} (hpc : s'.pc = s.pc) (hpool : s'.pool = s.pool) (ht : s'.tokens = s.tokens)
    (hb : ∀ a, s'.stored a + [b].count a = s.stored a) : Sound (s'.release b) := by
  refine h.keep hpc (fun a => ?_) ?_
  · have := hb a
    simp only [State.stored, State.release, List.count_append] at this ⊢
    omega
  · have hle := h.tokens_le (l := [b]) fun a => by
      rw [← hb a, ← hpool]
      simp only [State.stored]
      omega
    simp only [State.release, List.length_append, List.length_singleton, hpool, ht] at hle ⊢
    omega

end

theorem count_erase_add {b : Nat} (hb : b ∈ l) (a : Nat) :
    (l.erase b).count a + [b].count a = l.count a := by
  rw [(List.perm_cons_erase hb).count_eq a, List.count_cons, List.count_cons, List.count_nil, Nat.zero_add]

/-- The bus gives a buffer back to the pool. -/
theorem given (h : Sound s) {b : Nat} (hb : b ∈ s.bus) : Sound ({ s with bus := s.bus.erase b }.release b) := by
  refine h.released rfl rfl rfl fun a => ?_
  have := count_erase_add hb a
  simp only [State.stored]
  omega

/-! ## the callbacks -/

theorem playCallback (h : Sound s) {ptr : Option Nat} (hptr : ∀ b ∈ ptr, b ∈ s.bus) : Sound (s.playCallback ptr) := by
  have pops : ∀ {s : State m}, Sound s → Sound (match s.playFifo with
      | b :: rest => { s with playFifo := rest, bus := b :: s.bus }
      | [] => s) := by
    intro s h
    split
    next b rest hf =>
      refine h.keep rfl (fun a => ?_) rfl
      simp only [State.stored, hf, List.count_cons]
      omega
    next => exact h
  unfold State.playCallback
  split
  next => exact h
  next =>
    cases ptr with
    | none => exact pops h
    | some b => exact pops (h.given (hptr b rfl))

theorem recordNext (h : Sound s) : Sound s.recordNext := by
  unfold State.recordNext
  split
  next => exact h
  next hpos =>
    have ht := h.tokens
    cases hpool : s.pool with
    | nil =>
      rw [hpool, List.length_nil] at ht
      omega
    | cons b rest =>
      refine h.keep rfl (fun a => ?_) ?_
      · simp only [State.stored, hpool, List.count_cons]
        omega
      · simp only [hpool, List.length_cons]
        omega

theorem recordCallback (h : Sound s) {ptr : Option Nat} (hptr : ∀ b ∈ ptr, b ∈ s.bus) :
    Sound (s.recordCallback ptr) := by
  unfold State.recordCallback
  split
  next => exact h
  next =>
    cases ptr with
    | none => exact h.recordNext
    | some b =>
      simp only [if_pos h.recFifo_lt]
      refine recordNext (h.keep rfl (fun a => ?_) rfl)
      have := count_erase_add (hptr b rfl) a
      simp only [State.stored, List.count_append]
      omega

/-- The bus gives back two buffers or none. -/
theorem errorCallback (h : Sound s) {buf1 buf2 : Option Nat} (hbus : List.Subperm (buf1.toList ++ buf2.toList) s.bus)
    (hpair : buf1.isSome = buf2.isSome) : Sound (s.errorCallback buf1 buf2) := by
  have modes : ∀ {s : State m}, Sound s → Sound (match s.mode with
      | .stopWait => if s.record then { s with mode := .stopWait2 } else s
      | _ => s) := by
    intro s h
    split
    next =>
      split
      · exact h.keep rfl (fun _ => rfl) rfl
      · exact h
    next => exact h
  unfold State.errorCallback
  cases buf1 with
  | none =>
    cases buf2 with
    | none => exact modes h
    | some b' => cases hpair
  | some b =>
    cases buf2 with
    | none => cases hpair
    | some b' =>
      have hb : b ∈ s.bus := hbus.subset List.mem_cons_self
      have hrest : List.Subperm [b'] (s.bus.erase b) := by simpa using hbus.erase b
      have hb' : b' ∈ s.bus.erase b := hrest.subset List.mem_cons_self
      simp only [Option.toList, List.diff_cons, List.diff_nil]
      exact modes ((h.given hb).given hb')

/-! ## the calls -/

theorem next_bare (fs : List Fifo) (record : Bool) : (Pc.next fs record).Bare := by
  cases fs <;> exact ⟨fun _ => rfl, rfl, rfl⟩

theorem count_hand (b a : Nat) : (if b = a then 1 else 0) = [b].count a := by
  rw [List.count_singleton]
  simp

/-- A call goes on that changes only itself and the mode. -/
theorem passes (h : Sound s) {c : Fin m} {x : Pc} (hc : (s.pc c).Bare) (hx : x.Bare) (mode : Mode) (record : Bool) :
    Sound { s with mode := mode, record := record, pc := update s.pc c x } := by
  obtain ⟨hhand, hclaims, howes⟩ := hc
  obtain ⟨hxhand, hxclaims, hxowes⟩ := hx
  refine h.move rfl (fun b => ?_) ?_
  · rw [hhand, hxhand]
    rfl
  · rw [hclaims, howes, hxclaims, hxowes]

/-- The buffer in the hand of a call gets into a fifo. -/
theorem pushes (h : Sound s) {c : Fin m} {b : Nat} {x : Pc} (f : Fifo) (hc : (s.pc c).Holds b) (hx : x.Bare) :
    Sound { s.pushed b f with pc := update s.pc c x } := by
  obtain ⟨hhand, hclaims, howes⟩ := hc
  obtain ⟨hxhand, hxclaims, hxowes⟩ := hx
  refine h.move rfl (fun a => ?_) ?_
  · rw [hhand, hxhand]
    cases f <;> simp only [State.stored, State.pushed, List.count_append] <;> omega
  · cases f <;> simp only [State.pushed] <;> omega

/-- The user gives a buffer into the hand of a call. -/
theorem takes (h : Sound s) {c : Fin m} {b : Nat} {x : Pc} (hc : s.pc c = .idle) (hb : b ∈ s.user) (hx : x.Holds b) :
    Sound { s with user := s.user.erase b, pc := update s.pc c x } := by
  obtain ⟨hhand, hclaims, howes⟩ := hx
  refine h.move rfl (fun a => ?_) ?_
  · have := count_erase_add hb a
    rw [hc, hhand]
    simp only [State.stored, Pc.hand]
    omega
  · rw [hc, hclaims, howes]
    rfl

theorem runPc (h : Sound s) {c : Fin m} (hs : runPc s c (s.pc c) = some s') : Sound s' := by
  cases hc : s.pc c with
  | idle | starting =>
    rw [hc] at hs
    cases hs
  | token job =>
    simp only [hc, I2sAudio.runPc] at hs
    obtain ⟨hpos, rfl⟩ := of_guard hs
    refine h.move rfl (fun b => ?_) ?_
    · rw [hc]
      rfl
    · simp only [hc, Pc.claims, Pc.owes]
      omega
  | alloc job =>
    have hpos := le_tally (f := Pc.claims) (g := s.pc) c
    have ht := h.tokens
    simp only [hc, Pc.claims] at hpos
    simp only [hc, I2sAudio.runPc] at hs
    split at hs
    next hpool =>
      rw [hpool, List.length_nil] at ht
      omega
    next b rest hpool =>
      cases hs
      refine h.move rfl (fun a => ?_) ?_
      · simp only [State.stored, hc, hpool, Pc.hand, List.count_cons]
        omega
      · simp only [hc, hpool, Pc.claims, Pc.owes, List.length_cons]
        omega
    next b rest f fs record hpool =>
      cases hs
      refine h.move rfl (fun a => ?_) ?_
      · simp only [State.stored, hc, hpool, Pc.hand, count_hand, List.count_cons, List.count_nil]
        omega
      · simp only [hc, hpool, Pc.claims, Pc.owes, List.length_cons]
        omega
  | supply b f fs record =>
    simp only [hc, I2sAudio.runPc] at hs
    obtain ⟨-, rfl⟩ := of_guard hs
    refine h.pushes f ?_ (next_bare fs record)
    rw [hc]
    exact ⟨count_hand b, rfl, rfl⟩
  | launch record =>
    simp only [hc, I2sAudio.runPc] at hs
    cases hs
    exact h.passes (hc ▸ ⟨fun _ => rfl, rfl, rfl⟩) ⟨fun _ => rfl, rfl, rfl⟩ .sampling record
  | push b =>
    simp only [hc, I2sAudio.runPc] at hs
    obtain ⟨-, rfl⟩ := of_guard hs
    refine h.pushes .play ?_ ⟨fun _ => rfl, rfl, rfl⟩
    rw [hc]
    exact ⟨count_hand b, rfl, rfl⟩
  | pop =>
    simp only [hc, I2sAudio.runPc] at hs
    split at hs
    next b rest hf =>
      cases hs
      refine h.move rfl (fun a => ?_) ?_
      · simp only [State.stored, hc, hf, Pc.hand, List.count_cons]
        omega
      · rw [hc]
        rfl
    next => cases hs
  | free b =>
    simp only [hc, I2sAudio.runPc] at hs
    cases hs
    refine h.move rfl (fun a => ?_) ?_
    · simp only [State.stored, hc, Pc.hand, count_hand, List.count_append]
      omega
    · simp only [hc, Pc.claims, Pc.owes, List.length_append, List.length_singleton]
      omega
  | signal =>
    have howes := le_tally (f := Pc.owes) (g := s.pc) c
    have ht := h.tokens
    have hpool := h.pool_le
    simp only [hc, Pc.owes] at howes
    simp only [hc, I2sAudio.runPc] at hs
    cases hs
    refine h.move rfl (fun b => ?_) ?_
    · rw [hc]
      rfl
    · simp only [hc, Pc.claims, Pc.owes]
      omega

/-- Only a call without a token and without a buffer waits. -/
theorem waits (h : Sound s) {pc : Pc} (hw : pc.Waits s) : pc.Bare := by
  cases pc with
  | token _ | pop => exact ⟨fun _ => rfl, rfl, rfl⟩
  | supply b f fs record =>
    cases f with
    | play => exact absurd h.playFifo_lt (Nat.not_lt.mpr hw)
    | record => exact absurd h.recFifo_lt (Nat.not_lt.mpr hw)
  | push b => exact absurd h.playFifo_lt (Nat.not_lt.mpr hw)
  | idle | alloc _ | launch _ | starting | free _ | signal => exact hw.elim

end Sound

/-- An error callback with one buffer only is the case that fails. -/
def Paired (e : Event m) (_ : State m) : Prop :=
  match e with
  | .errorCallback buf1 buf2 => buf1.isSome = buf2.isSome
  | _ => True

instance : ∀ (e : Event m) (s : State m), Decidable (Paired e s)
  | .errorCallback _ _, _ => inferInstanceAs (Decidable (_ = _))
  | .streamConf, _ | .start _ _ _, _ | .stop, _ | .getPlayback _, _ | .getRecord _, _ | .releasePlayback _ _, _
  | .releaseRecord _ _, _ | .run _, _ | .timeout _, _ | .started _ _, _ | .playCallback _, _ | .recordCallback _, _ =>
    inferInstanceAs (Decidable True)

namespace Sound

variable {s s' : State m}

theorem init : Sound ({} : State m) := by
  have none : ∀ f : Pc → Nat, f .idle = 0 → tally f ({} : State m).pc = 0 := fun f hf => tally_const_zero hf
  refine ⟨fun b => ?_, ?_⟩
  · have hcount : (List.range mempoolCnt).count b = if b < mempoolCnt then 1 else 0 := by
      rw [List.nodup_range.count]
      simp only [List.mem_range]
    rw [State.places, none _ rfl]
    exact hcount
  · rw [none _ rfl, none _ rfl]
    rfl

theorem step {e : Event m} (h : Sound s) (hs : Meeting Step Paired e s s') : Sound s' := by
  obtain ⟨hs, hpair⟩ := hs
  cases e with
  | streamConf =>
    simp only [Step, I2sAudio.step] at hs
    split at hs
    · cases hs
      exact h.keep rfl (fun _ => rfl) rfl
    · cases hs
      exact h
  | start c play record =>
    obtain ⟨hc, hs⟩ := Option.ite_none_right_eq_some.mp hs
    split at hs
    · cases hs
      exact h.passes (hc ▸ ⟨fun _ => rfl, rfl, rfl⟩) (next_bare _ _) s.mode s.record
    · cases hs
      exact h
  | stop =>
    simp only [Step, I2sAudio.step] at hs
    split at hs
    · cases hs
      exact h.keep rfl (fun _ => rfl) rfl
    · cases hs
      exact h
  | getPlayback c =>
    obtain ⟨hc, rfl⟩ := of_guard hs
    exact h.passes (hc ▸ ⟨fun _ => rfl, rfl, rfl⟩) ⟨fun _ => rfl, rfl, rfl⟩ s.mode s.record
  | getRecord c =>
    obtain ⟨hc, hs⟩ := Option.ite_none_right_eq_some.mp hs
    split at hs
    · cases hs
      exact h.passes (hc ▸ ⟨fun _ => rfl, rfl, rfl⟩) ⟨fun _ => rfl, rfl, rfl⟩ s.mode s.record
    · cases hs
      exact h
  | releasePlayback c b =>
    obtain ⟨⟨hc, hb⟩, rfl⟩ := of_guard hs
    exact h.takes hc hb (by split <;> exact ⟨count_hand b, rfl, rfl⟩)
  | releaseRecord c b =>
    obtain ⟨⟨hc, hb⟩, rfl⟩ := of_guard hs
    exact h.takes hc hb ⟨count_hand b, rfl, rfl⟩
  | run c => exact h.runPc hs
  | timeout c =>
    obtain ⟨hw, rfl⟩ := of_guard hs
    exact h.passes (h.waits hw) ⟨fun _ => rfl, rfl, rfl⟩ s.mode s.record
  | started c ok =>
    obtain ⟨hc, hs⟩ := Option.ite_none_right_eq_some.mp hs
    split at hs
    · cases hs
      exact h.passes (hc ▸ ⟨fun _ => rfl, rfl, rfl⟩) ⟨fun _ => rfl, rfl, rfl⟩ s.mode s.record
    · cases hs
      exact h.passes (hc ▸ ⟨fun _ => rfl, rfl, rfl⟩) ⟨fun _ => rfl, rfl, rfl⟩ .idle false
  | playCallback ptr =>
    obtain ⟨hptr, rfl⟩ := of_guard hs
    exact h.playCallback hptr
  | recordCallback ptr =>
    obtain ⟨hptr, rfl⟩ := of_guard hs
    exact h.recordCallback hptr
  | errorCallback buf1 buf2 =>
    obtain ⟨hbus, rfl⟩ := of_guard hs
    exact h.errorCallback hbus hpair

/-! ## `discard_streams` -/

theorem drainsPlay (h : Sound { s with playFifo := l }) :
    Sound (l.foldl State.release { s with playFifo := [] }) := by
  induction l generalizing s with
  | nil => exact h
  | cons b l ih =>
    have hnext : Sound (State.release { s with playFifo := l } b) := by
      refine h.released rfl rfl rfl fun a => ?_
      simp only [State.stored, List.count_cons, List.count_nil]
      omega
    exact ih (s := s.release b) hnext

theorem drainsRecord (h : Sound { s with recFifo := l }) :
    Sound (l.foldl State.release { s with recFifo := [] }) := by
  induction l generalizing s with
  | nil => exact h
  | cons b l ih =>
    have hnext : Sound (State.release { s with recFifo := l } b) := by
      refine h.released rfl rfl rfl fun a => ?_
      simp only [State.stored, List.count_cons, List.count_nil]
      omega
    exact ih (s := s.release b) hnext

theorem discardStreams (h : Sound s) : Sound s.discardStreams := drainsRecord (drainsPlay h)

end Sound

theorem foldl_release (l : List Nat) (s : State m) :
    ∃ pool tokens, l.foldl State.release s = { s with pool := pool, tokens := tokens } := by
  induction l generalizing s with
  | nil => exact ⟨_, _, rfl⟩
  | cons b l ih => exact ih (s.release b)

/-- `discard_streams` changes only the fifos, the pool and the tokens. -/
theorem discardStreams_eq (s : State m) :
    ∃ pool tokens, s.discardStreams = { s with pool := pool, tokens := tokens, playFifo := [], recFifo := [] } := by
  obtain ⟨pool, tokens, h⟩ := foldl_release s.playFifo { s with playFifo := [] }
  obtain ⟨pool', tokens', h'⟩ :=
    foldl_release s.recFifo { s with pool := pool, tokens := tokens, playFifo := [], recFifo := [] }
  refine ⟨pool', tokens', ?_⟩
  simp only [State.discardStreams, h]
  exact h'

/-- No call is in progress. -/
def Quiet (s : State m) : Prop := ∀ c, s.pc c = .idle

variable {s : State m}

theorem Quiet.tally (h : Quiet s) (f : Pc → Nat) (hf : f .idle = 0) : tally f s.pc = 0 := by
  rw [show s.pc = fun _ => .idle from funext h]
  exact tally_const_zero hf

theorem Sound.quiet (h : Sound s) (hq : Quiet s) : s.tokens = s.pool.length := by
  have := h.tokens
  rw [hq.tally Pc.claims rfl, hq.tally Pc.owes rfl] at this
  exact this

/-- All buffers are free when there are none in other places. -/
theorem Sound.all_free (h : Sound s) (hq : Quiet s) (hbus : s.bus = []) (huser : s.user = []) :
    s.discardStreams.pool.length = mempoolCnt ∧ s.discardStreams.tokens = mempoolCnt := by
  obtain ⟨pool, tokens, heq⟩ := discardStreams_eq s
  have hd := h.discardStreams
  rw [heq] at hd ⊢
  have hcount : ∀ b, pool.count b = (List.range mempoolCnt).count b := by
    intro b
    have hp := hd.places b
    rw [List.nodup_range.count]
    simp only [List.mem_range]
    simp only [State.places, State.stored, hbus, huser, List.count_nil, hq.tally (Pc.hand b) rfl] at hp
    omega
  have hlen : pool.length = mempoolCnt := by
    rw [(List.perm_iff_count.mpr hcount).length_eq, List.length_range]
  exact ⟨hlen, (hd.quiet hq).trans hlen⟩

/-! ## a new start -/

/-- A fifo gets a free buffer in three operations of `start`. -/
theorem supplies_one {c : Fin m} {f : Fifo} {fs : List Fifo} {record : Bool} {b : Nat} {rest : List Nat}
    (hc : s.pc c = .token (some (f, fs, record))) (ht : 0 < s.tokens) (hpool : s.pool = b :: rest)
    (hroom : (s.fifo f).length < fifoCap) (es : List (Event m)) :
    runList step (.run c :: .run c :: .run c :: es) s =
      runList step es { s.pushed b f with
        pool := rest
        tokens := s.tokens - 1
        pc := update s.pc c (.next fs record) } := by
  cases f <;> simp [runList, step, runPc, hc, ht, hpool, State.fifo, State.pushed] at hroom ⊢ <;> simp [hroom]

/-- With enough free buffers `start` gets to the bus. -/
theorem supplies {c : Fin m} (record : Bool) (fs : List Fifo) (hc : s.pc c = .next fs record)
    (ht : fs.length ≤ s.tokens) (hpool : fs.length ≤ s.pool.length)
    (hroom : ∀ f, (s.fifo f).length + fs.length ≤ fifoCap) :
    ∃ n s', runList step (List.replicate n (.run c)) s = some s' ∧ s'.pc c = .starting := by
  induction fs generalizing s with
  | nil =>
    refine ⟨1, { s with mode := .sampling, record := record, pc := update s.pc c .starting }, ?_, ?_⟩
    · simp [runList, step, runPc, hc, Pc.next]
    · exact update_self ..
  | cons f fs ih =>
    simp only [List.length_cons] at ht hpool hroom
    cases hp : s.pool with
    | nil =>
      rw [hp, List.length_nil] at hpool
      omega
    | cons b rest =>
      rw [hp, List.length_cons] at hpool
      have hf := hroom f
      have hroom' : ∀ f', ((s.pushed b f).fifo f').length + fs.length ≤ fifoCap := by
        intro f'
        have := hroom f'
        cases f <;> cases f' <;>
          simp only [State.fifo, State.pushed, List.length_append, List.length_singleton] at this ⊢ <;> omega
      obtain ⟨n, s', hrun, hpc⟩ := ih (s := { s.pushed b f with
        pool := rest
        tokens := s.tokens - 1
        pc := update s.pc c (.next fs record) }) (update_self ..) (by simp only; omega)
        (by simp only; omega) (fun f' => by cases f' with | play => exact hroom' .play | record => exact hroom' .record)
      refine ⟨n + 3, s', ?_, hpc⟩
      simp only [List.replicate_succ]
      rw [supplies_one hc (by omega) hp (by omega)]
      exact hrun

/-- `start` does not run out of memory when all buffers are free. -/
theorem start_gets {c : Fin m} (hc : s.pc c = .idle) (hmode : s.mode = .idle)
    (hpool : s.pool.length = mempoolCnt) (ht : s.tokens = mempoolCnt) (hplay : s.playFifo = []) (hrec : s.recFifo = [])
    (play record : Bool) :
    ∃ n s', runList step (.start c play record :: List.replicate n (.run c)) s = some s' ∧ s'.pc c = .starting := by
  have hlen : ((if play then [Fifo.play, .play] else []) ++
      if record then [Fifo.record, .record] else []).length ≤ 4 := by
    cases play <;> cases record <;> decide
  obtain ⟨n, s', hrun, hpc⟩ := supplies record
    ((if play then [Fifo.play, .play] else []) ++ if record then [.record, .record] else [])
    (s := { s with pc := update s.pc c (.next _ record) }) (update_self ..)
    (by simp only [ht, mempoolCnt]; omega) (by simp only [hpool, mempoolCnt]; omega)
    fun f => by cases f <;> simp only [State.fifo, hplay, hrec, List.length_nil, fifoCap] <;> omega
  refine ⟨n, s', ?_, hpc⟩
  rw [runList, step, if_pos hc, if_pos hmode]
  exact hrun

/-- **Buffers are conserved**: as long as each error callback has both buffers or none, every buffer of the pool is in
one place, there are as many tokens as free buffers whenever no call is in progress, and then, with no buffer at the
bus or the user, `discard_streams` makes all buffers free again and a new `start` gets the buffers it needs. -/
theorem buffers_conserved (hr : Run (Meeting Step Paired) {} s) :
    (∀ b < mempoolCnt, s.places b = 1) ∧ (Quiet s → s.tokens = s.pool.length) ∧
      (Quiet s → s.bus = [] → s.user = [] →
        s.discardStreams.pool.length = mempoolCnt ∧ s.discardStreams.tokens = mempoolCnt ∧
          (s.mode = .idle → ∀ c play record, ∃ n s',
            runList step (.start c play record :: List.replicate n (.run c)) s.discardStreams = some s' ∧
              s'.pc c = .starting)) := by
  have h : Sound s := hr.keeps (fun _ _ _ h hs => h.step hs) .init
  refine ⟨fun b hb => (h.places b).trans (if_pos hb), h.quiet, fun hq hbus huser => ?_⟩
  obtain ⟨hpool, ht⟩ := h.all_free hq hbus huser
  obtain ⟨pool, tokens, heq⟩ := discardStreams_eq s
  refine ⟨hpool, ht, fun hmode c play record => ?_⟩
  rw [heq] at hpool ht ⊢
  exact start_gets (s := { s with pool := pool, tokens := tokens, playFifo := [], recFifo := [] })
    (hq c) hmode hpool ht rfl rfl play record

/-- A buffer is played, another one is with the user and the bus gives back two. -/
def played : Reached (Meeting Step Paired) ({} : State 1) fun s =>
    s.pc 0 = .idle ∧ s.pool.length = 15 ∧ s.user = [2] ∧ s.tokens = 15 :=
  reached (meeting_of_guarded fun _ _ _ => id)
    [.streamConf, .start 0 true false, .run 0, .run 0, .run 0, .run 0, .run 0, .run 0, .run 0, .playCallback none,
      .playCallback none, .started 0 true, .getPlayback 0, .run 0, .run 0, .stop, .errorCallback (some 0) (some 1)]
    (by decide +kernel)

theorem played_conserved :
    (∀ b < mempoolCnt, played.state.places b = 1) ∧
      (Quiet played.state → played.state.tokens = played.state.pool.length) :=
  ⟨(buffers_conserved played.run).1, (buffers_conserved played.run).2.1⟩

/-- The bus holds one buffer and gives it back as the second one: it is nowhere then. -/
theorem buffer_lost : ∃ s : State 1, Run Step {} s ∧ s.bus = [] ∧ s.user = [] ∧ s.places 0 = 0 ∧ s.pc 0 = .idle ∧
    s.discardStreams.pool.length = 15 :=
  exists_run (fun _ _ _ => id)
    [.streamConf, .start 0 true false, .run 0, .run 0, .run 0, .run 0, .run 0, .run 0, .run 0, .playCallback none,
      .started 0 true, .stop, .errorCallback none (some 0)]
    (by decide +kernel)

end Isix.Foundation.I2sAudio
