import Isix.Co.Stream
import Isix.Properties.CoNodes

/-!
# Isix.Properties.CoStreamRead

A read of a stream that succeeds is long enough.  The bytes are counted when the reader is woken and
taken when it goes on; in between its node is on the ready list and no more on `m_waiters`, so a
second read that starts there finds no waiter.  As long as none does, at most one reader is suspended
(`Serves`) and the bytes it was woken for stay in the ring.

`Watched` adds to the stream what the calls asked for and what they got.
-/

namespace Isix.Co.Stream

open Function (update update_of_ne)
open Runs (Run Reached reached Meeting meeting_of_guarded of_guard of_guard_map)

/-! ## what the reads asked for -/

/-- A read that succeeded: its arguments and the number of bytes. -/
structure Done where
  size : Nat
  minBytes : Nat
  got : Nat
  deriving DecidableEq

structure Watched where
  state : State
  /-- the buffer size and `min_bytes` of the last read with the node -/
  call : NodeId → Nat × Nat := fun _ => (0, 0)
  done : List Done := []

/-- What a step adds to the calls. -/
def called (call : NodeId → Nat × Nat) : Event → NodeId → Nat × Nat
  | .read n _ size minBytes _ _ _ => update call n (size, minBytes)
  | _ => call

/-- What a step adds to the reads that succeeded. -/
def finished (w : Watched) (s' : State) : Event → List Done
  | .finish =>
    match w.state.popping, s'.reads.getLast? with
    | some n, some (.ok out) => ⟨(w.call n).1, (w.call n).2, out.length⟩ :: w.done
    | _, _ => w.done
  | _ => w.done

def watch (N : Nat) (e : Event) (w : Watched) : Option Watched :=
  (step N e w.state).map fun s' => ⟨s', called w.call e, finished w s' e⟩

def Watch (N : Nat) (e : Event) (w w' : Watched) : Prop := watch N e w = some w'

/-- No read starts while a reader was woken and has not gone on. -/
def Settled : Event → Watched → Prop
  | .read .., w => w.state.sched.ready = []
  | _, _ => True

instance : ∀ e w, Decidable (Settled e w)
  | .read .., w => inferInstanceAs (Decidable (w.state.sched.ready = []))
  | .write _, _ | .signal, _ | .finish, _ | .dispatch, _ | .resume, _ | .background _, _ => isTrue trivial

/-- The least number of bytes of a read that succeeds. -/
def least (N size minBytes : Nat) : Nat := min (max minBytes 1) (min N size)

variable {N : Nat} {s s' : State} {w w' : Watched} {n m : NodeId} {h : Handle} {size minBytes timeout : Nat}
  {sched sched' : Scheduler} {req : NodeId → Read} {popping : Option NodeId} {want count : Nat}

theorem clamp_eq (hN : 0 < N) (hsize : size ≠ 0) : max 1 (min minBytes (min N size)) = least N size minBytes := by
  unfold least
  omega

/-! ## at most one reader -/

/-- The reader that is suspended, or takes its bytes, is the only one, and the bytes it was woken for are there. -/
structure Serves (sched : Scheduler) (req : NodeId → Read) (popping : Option NodeId) (want count : Nat) : Prop where
  linked : sched.Linked
  one : ∀ n m, (sched.node n).state ≠ .idle → (sched.node m).state ≠ .idle → n = m
  alone : popping ≠ none → ∀ n, (sched.node n).state = .idle
  taking : ∀ n, popping = some n → (req n).min ≤ count
  waiting : ∀ n, (sched.node n).state = .waiting →
    n ∈ sched.waiters 0 ∧ want = (req n).min ∧ (sched.node n).timeoutResult = isixEtimeout
  ready : ∀ n, (sched.node n).state = .ready → (sched.node n).result = isixEok → (req n).min ≤ count

namespace Serves

theorem init (time : Nat) (req : NodeId → Read) (want count : Nat) :
    Serves { time } req none want count where
  linked := Scheduler.linked_init time
  one := by simp
  alone := by simp
  taking := by simp
  waiting := by simp
  ready := by simp

section

variable (hs : Serves sched req popping want count)

include hs

/-- More bytes come in. -/
theorem mono {count' : Nat} (hc : count ≤ count') :
    Serves sched req popping want count' :=
  { hs with taking := fun n hn => Nat.le_trans (hs.taking n hn) hc, ready := fun n hn hr => Nat.le_trans (hs.ready n hn hr) hc }

/-- The time and the running coroutine are no concern of the readers. -/
theorem congr (time : Nat) (running : Option Handle) {timers : List NodeId} (ht : timers.Sublist sched.timers) :
    Serves { sched with time, running, timers } req popping want count :=
  { hs with linked := (hs.linked.unlink ht).congr time running fun _ => rfl }

/-- Nobody is suspended if nobody waits and nobody is ready. -/
theorem idle (hw : sched.waiters 0 = []) (hr : sched.ready = []) (n : NodeId) :
    (sched.node n).state = .idle := by
  cases hn : (sched.node n).state with
  | idle => rfl
  | waiting =>
    have := (hs.waiting n hn).1
    simp [hw] at this
  | ready =>
    have := (hs.linked.ready_iff n).mpr hn
    simp [hr] at this

/-- A read finds enough bytes. -/
theorem take {r : Read} (hidle : ∀ n, (sched.node n).state = .idle)
    (hr : r.min ≤ count) : Serves sched (update req n r) (some n) want count where
  linked := hs.linked
  one := hs.one
  alone := fun _ => hidle
  taking := by
    intro m hm
    cases hm
    simpa using hr
  waiting := fun m hm => by simp [hidle m] at hm
  ready := fun m hm => by simp [hidle m] at hm

end

/-- A read waits. -/
theorem wait {r : Read} (hs : Serves sched req none want count) (hidle : ∀ n, (sched.node n).state = .idle) :
    Serves (sched.waitOn 0 n h timeout) (update req n r) none r.min count := by
  have hbusy : ∀ m, ((sched.waitOn 0 n h timeout).node m).state ≠ .idle → m = n := by
    intro m hm
    by_contra hne
    simp [hne, hidle m] at hm
  have hself : (sched.waitOn 0 n h timeout).node n = sched.suspended n h timeout isixEtimeout := by simp
  refine ⟨hs.linked.waitOn (hidle n), fun a b ha hb => (hbusy a ha).trans (hbusy b hb).symm, by simp, by simp,
    fun m hm => ?_, fun m hm => ?_⟩
  · have he := hbusy m (by rw [hm]; nofun)
    subst he
    rw [hself]
    refine ⟨by simp, by simp, ?_⟩
    show toInt8 isixEtimeout = isixEtimeout
    decide
  · have he := hbusy m (by rw [hm]; nofun)
    subst he
    rw [hself] at hm
    cases hm

/-- A reader is woken; with `ISIX_EOK` only if its bytes are there. -/
theorem wake {r : Int} (hs : Serves sched req popping want count) (hn : (sched.node n).state = .waiting)
    (hr : toInt16 r = isixEok → want ≤ count) : Serves (sched.wake n r) req popping want count := by
  have hself := Scheduler.wake_node_self (r := r) hn
  have hother : ∀ m, m ≠ n → (sched.node m).state = .idle := by
    intro m hm
    by_contra hbusy
    exact hm (hs.one m n hbusy (by simp [hn]))
  have hstate : ∀ m, m ≠ n → ((sched.wake n r).node m).state = .idle := fun m hm => by
    rw [Scheduler.wake_node_of_ne hm]
    exact hother m hm
  have hbusy : ∀ m, ((sched.wake n r).node m).state ≠ .idle → m = n := fun m hm => by
    by_contra hne
    exact hm (hstate m hne)
  refine ⟨hs.linked.wake, fun a b ha hb => (hbusy a ha).trans (hbusy b hb).symm, fun hp => ?_, hs.taking,
    fun m hm => ?_, fun m hm hres => ?_⟩
  · have := hs.alone hp n
    simp [hn] at this
  · have he := hbusy m (by simp [hm])
    subst he
    simp [hself] at hm
  · have he := hbusy m (by simp [hm])
    subst he
    rw [hself] at hres
    rw [← (hs.waiting m hn).2.1]
    exact hr hres

theorem background {b : Background} (hs : Serves sched req popping want count)
    (hb : sched.background b = some sched') : Serves sched' req popping want count := by
  refine (hs.linked.background (P := fun t => Serves t req popping want count) (fun t n r _ ht hn hr => ?_)
    (fun t time running timers ht hsub => ht.congr time running hsub) hs hb).2
  refine ht.wake hn fun heok => ?_
  rcases hr with rfl | rfl
  · rw [(ht.waiting n hn).2.2] at heok
    exact absurd heok (by decide)
  · exact absurd heok (by decide)

/-- A reader goes on. -/
theorem resume (hs : Serves sched req none want count) (hr : sched.resume = some (n, sched')) :
    (sched.node n).state = .ready ∧ (∀ m, (sched'.node m).state = .idle) ∧ Serves sched' req none want count := by
  have hlinked := hs.linked.resume hr
  obtain ⟨rest, hready, rfl⟩ := Scheduler.exists_of_resume hr
  have hn : (sched.node n).state = .ready := (hs.linked.ready_iff n).mp (by simp [hready])
  have hidle : ∀ m, (update sched.node n { sched.node n with state := .idle } m).state = .idle := by
    intro m
    by_cases hm : m = n
    · subst hm
      simp
    · rw [update_of_ne hm]
      by_contra hbusy
      exact hm (hs.one m n hbusy (by simp [hn]))
  refine ⟨hn, hidle, hlinked, fun a b ha => absurd (hidle a) ha, by simp, by simp, fun m hm => ?_, fun m hm => ?_⟩
  · rw [show _ = NodeState.idle from hidle m] at hm
    cases hm
  · rw [show _ = NodeState.idle from hidle m] at hm
    cases hm

/-- A reader that was woken with `ISIX_EOK` is about to take its bytes. -/
theorem resume_ok (hs : Serves sched req none want count) (hr : sched.resume = some (n, sched'))
    (hok : (sched.node n).result = isixEok) : Serves sched' req (some n) want count := by
  obtain ⟨hn, hidle, hs'⟩ := hs.resume hr
  refine { hs' with alone := fun _ => hidle, taking := fun m hm => ?_ }
  cases hm
  exact hs.ready n hn hok

/-- The bytes are taken. -/
theorem finish {count' : Nat} (hs : Serves sched req (some n) want count) : Serves sched req none want count' where
  linked := hs.linked
  one := hs.one
  alone := by simp
  taking := by simp
  waiting := hs.waiting
  ready := fun m hm => by simp [hs.alone (by simp) m] at hm

end Serves

/-! ## the arguments of the reads -/

/-- The read of a reader that is suspended, or takes its bytes, is the one it called. -/
def Asked (N : Nat) (sched : Scheduler) (req : NodeId → Read) (popping : Option NodeId) (call : NodeId → Nat × Nat) :
    Prop :=
  ∀ n, (sched.node n).state ≠ .idle ∨ popping = some n → req n = ⟨(call n).1, least N (call n).1 (call n).2⟩

variable {call : NodeId → Nat × Nat}

namespace Asked

section

variable (ha : Asked N sched req popping call)

include ha

/-- No reader becomes busy. -/
theorem mono {popping' : Option NodeId}
    (hb : ∀ m, (sched'.node m).state ≠ .idle ∨ popping' = some m → (sched.node m).state ≠ .idle ∨ popping = some m) :
    Asked N sched' req popping' call :=
  fun m hm => ha m (hb m hm)

theorem wake {r : Int} : Asked N (sched.wake n r) req popping call := by
  refine ha.mono fun m hm => hm.imp (fun hbusy => ?_) id
  by_cases hw : (sched.node n).state = .waiting
  · by_cases he : m = n
    · subst he
      simp [hw]
    · rwa [Scheduler.wake_node_of_ne he] at hbusy
  · rwa [Scheduler.wake_of_not_waiting hw] at hbusy

theorem background {b : Background} (hl : sched.Linked)
    (hb : sched.background b = some sched') : Asked N sched' req popping call :=
  (hl.background (P := fun t => Asked N t req popping call) (fun _ _ _ _ ht _ _ => ht.wake) (fun _ _ _ _ ht _ => ht) ha hb).2

end

theorem resume (ha : Asked N sched req none call) (hl : sched.Linked) (hr : sched.resume = some (n, sched'))
    {popping' : Option NodeId} (hp : popping' = none ∨ popping' = some n) : Asked N sched' req popping' call := by
  obtain ⟨rest, hready, rfl⟩ := Scheduler.exists_of_resume hr
  have hn : (sched.node n).state = .ready := (hl.ready_iff n).mp (by simp [hready])
  refine ha.mono fun m hm => .inl ?_
  by_cases he : m = n
  · subst he
    simp [hn]
  · rcases hm with hm | hm
    · simpa [he] using hm
    · rcases hp with rfl | rfl
      · cases hm
      · exact absurd (Option.some.inj hm).symm he

/-- A new read, with the node that is the only one in use. -/
theorem begin (hidle : ∀ m, m ≠ n → (sched.node m).state = .idle) {popping : Option NodeId}
    (hp : ∀ m, popping = some m → m = n) :
    Asked N sched (update req n ⟨size, least N size minBytes⟩) popping (update call n (size, minBytes)) := by
  intro m hm
  have he : m = n := by
    by_contra hne
    rcases hm with hm | hm
    · exact hm (hidle m hne)
    · exact hne (hp m hm)
  subst he
  simp

end Asked

/-! ## the steps -/

structure Sound (N : Nat) (w : Watched) : Prop where
  serves : Serves w.state.sched w.state.read w.state.popping w.state.want w.state.count
  asked : Asked N w.state.sched w.state.read w.state.popping w.call
  done : ∀ d ∈ w.done, least N d.size d.minBytes ≤ d.got ∧ d.got ≤ d.size

theorem sound_init (time : Nat) (buf : Nat → Byte) : Sound N ⟨.init time buf, fun _ => (0, 0), []⟩ where
  serves := .init time _ _ _
  asked := by simp [Asked, State.init]
  done := by simp

theorem write_fixed (data : List Byte) (s : State) : (write N data s).sched = s.sched ∧ (write N data s).read = s.read ∧
    (write N data s).popping = s.popping ∧ (write N data s).want = s.want ∧ s.count ≤ (write N data s).count := by
  unfold write push
  simp only
  split <;> simp

theorem drain_length (buf : Nat → Byte) (k head : Nat) : (drain N buf k head).1.length = k := by
  induction k generalizing head with
  | zero => rfl
  | succ k ih => simp [drain, ih]

namespace Sound

theorem read {timeout : Nat} {cancelled foreign : Bool} (hN : 0 < N) (hs : Sound N w) (hp : w.state.popping = none)
    (hn : (w.state.sched.node n).state = .idle) (hr : w.state.sched.ready = []) :
    Sound N ⟨Stream.read N n h size minBytes timeout cancelled foreign w.state, update w.call n (size, minBytes), w.done⟩ := by
  have hfail : ∀ code, Sound N ⟨w.state.fail code, update w.call n (size, minBytes), w.done⟩ := fun code => by
    refine ⟨hs.serves, fun m hm => ?_, hs.done⟩
    have he : m ≠ n := by
      rintro rfl
      rcases hm with hm | hm
      · exact hm hn
      · rw [show (w.state.fail code).popping = w.state.popping from rfl, hp] at hm
        cases hm
    have hcall : update w.call n (size, minBytes) m = w.call m := update_of_ne he ..
    show w.state.read m = ⟨(update w.call n _ m).1, least N (update w.call n _ m).1 (update w.call n _ m).2⟩
    rw [hcall]
    exact hs.asked m hm
  unfold Stream.read
  simp only
  split
  · exact hfail _
  next hsize =>
  split
  · exact hfail _
  next hw =>
  have hidle := hs.serves.idle (by simpa [State.waiters] using hw) hr
  rw [clamp_eq hN hsize]
  split
  next henough =>
    exact ⟨hs.serves.take hidle henough, Asked.begin (fun m _ => hidle m) fun m hm => (Option.some.inj hm).symm, hs.done⟩
  split
  · exact hfail _
  split
  · exact hfail _
  split
  · exact hfail _
  · have hserves := hp ▸ hs.serves
    refine ⟨?_, ?_, hs.done⟩
    · rw [hp]
      exact hserves.wait hidle
    · refine Asked.begin (fun m hm => ?_) fun m hm => ?_
      · simp [hm, hidle m]
      · rw [show w.state.popping = some m from hm] at hp
        cases hp

theorem finish (hs : Sound N w) (hp : w.state.popping = some n) :
    Sound N ⟨Stream.finish N n w.state, w.call, finished w (Stream.finish N n w.state) .finish⟩ := by
  have hread := hs.asked n (.inr hp)
  have hmin := hs.serves.taking n hp
  rw [hread] at hmin
  have hdone : finished w (Stream.finish N n w.state) .finish =
      ⟨(w.call n).1, (w.call n).2, min (w.call n).1 w.state.count⟩ :: w.done := by
    unfold finished Stream.finish pop
    simp [hp, drain_length, hread]
  refine ⟨(hp ▸ hs.serves).finish, ?_, ?_⟩
  · refine hs.asked.mono fun m hm => hm.imp id fun hm => ?_
    cases hm
  · rw [hdone]
    intro d hd
    rcases List.mem_cons.mp hd with rfl | hd
    · simp only [least] at hmin ⊢
      omega
    · exact hs.done d hd

theorem dispatch (hs : Sound N w) :
    Sound N ⟨Stream.dispatch { w.state with queued := false }, w.call, w.done⟩ := by
  unfold Stream.dispatch
  split
  · exact { hs with }
  next n rest hw =>
    split
    next hwant =>
      have hn : (w.state.sched.node n).state = .waiting :=
        hs.serves.linked.waiters_waiting 0 n (by
          rw [show w.state.sched.waiters 0 = n :: rest from hw]
          exact List.mem_cons_self ..)
      exact ⟨hs.serves.wake hn fun _ => hwant, hs.asked.wake, hs.done⟩
    · exact { hs with }

theorem resume {t : Scheduler} (hs : Sound N w) (hp : w.state.popping = none) (hr : w.state.sched.resume = some (n, t)) :
    Sound N ⟨if (w.state.sched.node n).result ≠ isixEok then
      { w.state with sched := t }.fail (w.state.sched.node n).result
      else { w.state with sched := t, popping := some n }, w.call, w.done⟩ := by
  have hserves := hp ▸ hs.serves
  have hasked := hp ▸ hs.asked
  split
  · refine ⟨?_, ?_, hs.done⟩
    · show Serves t _ w.state.popping _ _
      rw [hp]
      exact (hserves.resume hr).2.2
    · show Asked N t _ w.state.popping _
      rw [hp]
      exact hasked.resume hserves.linked hr (.inl rfl)
  next hok =>
    exact ⟨hserves.resume_ok hr (not_not.mp hok), hasked.resume hserves.linked hr (.inr rfl), hs.done⟩

theorem step {e : Event} (hN : 0 < N) (hs : Sound N w) (hstep : Meeting (Watch N) Settled e w w') : Sound N w' := by
  obtain ⟨hwatch, hsettled⟩ := hstep
  obtain ⟨s', hstep, rfl⟩ := Option.map_eq_some_iff.mp hwatch
  cases e with
  | write data =>
    cases hstep
    obtain ⟨hsched, hread, hpop, hwant, hcount⟩ := write_fixed data w.state
    refine ⟨?_, ?_, hs.done⟩
    · rw [hsched, hread, hpop, hwant]
      exact hs.serves.mono hcount
    · rw [hsched, hread, hpop]
      exact hs.asked
  | signal =>
    obtain ⟨-, rfl⟩ := of_guard hstep
    exact { hs with }
  | read n c size minBytes timeout cancelled foreign =>
    obtain ⟨⟨-, hn, hp⟩, rfl⟩ := of_guard hstep
    exact hs.read hN hp hn hsettled
  | finish =>
    obtain ⟨n, hp, rfl⟩ := Option.map_eq_some_iff.mp hstep
    exact hs.finish hp
  | dispatch =>
    obtain ⟨-, rfl⟩ := of_guard hstep
    exact hs.dispatch
  | resume =>
    obtain ⟨⟨hp, -⟩, ⟨n, t⟩, hr, rfl⟩ := of_guard_map hstep
    exact hs.resume hp hr
  | background b =>
    obtain ⟨-, t, hb, rfl⟩ := of_guard_map hstep
    exact ⟨hs.serves.background hb, hs.asked.background hs.serves.linked hb, hs.done⟩

end Sound

/-! ## the main result -/

/-- **A successful read is long enough**: in every run in which no read starts between the moment a reader is woken
and the moment it goes on, a read that succeeds gets at least the bytes it asked for, as far as the ring and its
buffer can hold them, and not more than its buffer; and a read that starts while another reader is suspended
fails with `ISIX_EBUSY` and leaves everything else alone. -/
theorem reads_long_enough (N time : Nat) (buf : Nat → Byte) (hN : 0 < N) (w : Watched)
    (h : Run (Meeting (Watch N) Settled) ⟨.init time buf, fun _ => (0, 0), []⟩ w) :
    (∀ d ∈ w.done, min (max d.minBytes 1) (min N d.size) ≤ d.got ∧ d.got ≤ d.size) ∧
    ∀ n c size minBytes timeout cancelled foreign w', size ≠ 0 → (∃ m, (w.state.sched.node m).state ≠ .idle) →
      Meeting (Watch N) Settled (.read n c size minBytes timeout cancelled foreign) w w' →
      w'.state = { w.state with reads := w.state.reads ++ [.error isixEbusy] } := by
  have hs : Sound N w := h.keeps (fun _ _ _ hs hstep => hs.step hN hstep) (sound_init time buf)
  refine ⟨hs.done, ?_⟩
  rintro n c size minBytes timeout cancelled foreign w' hsize ⟨m, hm⟩ ⟨hwatch, hsettled⟩
  obtain ⟨s', hstep, rfl⟩ := Option.map_eq_some_iff.mp hwatch
  obtain ⟨-, rfl⟩ := of_guard hstep
  have hw : w.state.waiters ≠ [] := fun hnil => hm (hs.serves.idle hnil hsettled m)
  unfold read
  simp [hsize, hw, State.fail]

/-- A reader that asked for two bytes gets the three that are there when it goes on. -/
def threeRead : Reached (Meeting (Watch 4) Settled) ⟨.init 0 fun _ => 0, fun _ => (0, 0), []⟩ fun w =>
    w.done = [⟨3, 2, 3⟩] :=
  reached (meeting_of_guarded fun _ _ _ h => h)
    [.background (.enter 7), .read 0 7 3 2 0 false false, .write [1, 2], .signal, .dispatch, .write [3], .resume, .finish]
    (by decide +kernel)

theorem threeRead_long_enough : ∃ w, Run (Meeting (Watch 4) Settled) ⟨.init 0 fun _ => 0, fun _ => (0, 0), []⟩ w ∧
    w.done = [⟨3, 2, 3⟩] ∧ ∀ d ∈ w.done, min (max d.minBytes 1) (min 4 d.size) ≤ d.got ∧ d.got ≤ d.size := by
  obtain ⟨w, hrun, hd⟩ := threeRead
  exact ⟨w, hrun, hd, (reads_long_enough 4 0 (fun _ => 0) (by decide) w hrun).1⟩

/-- The reader 7 waits for two bytes and is woken.  Before it goes on the coroutine 8 reads; it is not told
`ISIX_EBUSY` but takes both bytes, and the read of 7 succeeds with none. -/
def bytesStolen : Reached (Watch 4) ⟨.init 0 fun _ => 0, fun _ => (0, 0), []⟩ fun w => w.done = [⟨2, 2, 0⟩, ⟨2, 1, 2⟩] :=
  reached (fun _ _ _ h => h)
    [.background (.enter 7), .read 0 7 2 2 0 false false, .write [1, 2], .signal, .dispatch, .background (.enter 8),
      .read 1 8 2 1 0 false false, .finish, .background .leave, .resume, .finish] (by decide +kernel)

theorem read_too_short : ∃ w, Run (Watch 4) ⟨.init 0 fun _ => 0, fun _ => (0, 0), []⟩ w ∧
    w.done = [⟨2, 2, 0⟩, ⟨2, 1, 2⟩] :=
  bytesStolen.exists

end Isix.Co.Stream
