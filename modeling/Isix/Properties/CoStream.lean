import Isix.Co.Stream
import Isix.Lib.Ring

/-!
# Isix.Properties.CoStream

A stream delivers what it accepted.  Over every run the bytes that successful
reads returned, followed by the bytes in the ring, are the bytes that were
accepted (`Carries`): nothing is lost, reordered or read twice, and a read that
fails takes nothing.

The count of dropped bytes is kept in 32 bits, so it tells how many bytes were
offered and not accepted only while these are fewer than `2 ^ 32`.
-/

namespace Isix.Co.Stream

open Function (update)
open Runs (Run Meeting Reached reached of_guard of_guard_map)

variable {N : Nat} {s s' : State} {n : NodeId}

/-! ## the loops over the ring -/

section

variable {buf : Nat → Byte} {head tail count j k : Nat} {l : List Byte}

theorem next_eq {i : Nat} (h : i < N) : next N i = (i + 1) % N := by
  unfold next
  split
  next he => rw [he, Nat.mod_self]
  next hne => rw [Nat.mod_eq_of_lt (by omega)]

theorem holds_fill (data : List Byte) (h : Ring.Holds N buf head tail count l j) (hroom : count + data.length ≤ N) :
    Ring.Holds N (fill N data (buf, tail)).1 head (fill N data (buf, tail)).2 (count + data.length) (l ++ data) j := by
  induction data generalizing buf tail count l with
  | nil => simpa [fill] using h
  | cons b data ih =>
    simp only [List.length_cons] at hroom
    have hpush := h.push (x := b) (by omega)
    rw [← next_eq h.tail_lt] at hpush
    have hrest := ih hpush (by omega)
    rw [List.append_assoc, List.singleton_append, Nat.add_assoc, Nat.add_comm 1] at hrest
    exact hrest

theorem holds_drain (h : Ring.Holds N buf head tail count l j) (hk : k ≤ count) :
    (drain N buf k head).1 = (l.drop j).take k ∧
    Ring.Holds N buf (drain N buf k head).2 tail (count - k) l (j + k) := by
  induction k generalizing head count j with
  | zero => exact ⟨by simp [drain], h⟩
  | succ k ih =>
    have hpop := h.pop (by omega)
    have hfront := h.front (by omega)
    rw [← next_eq h.head_lt] at hpop
    obtain ⟨hout, hrest⟩ := ih hpop (by omega)
    constructor
    · have hj : j < l.length := by
        have := h.count_eq
        omega
      rw [List.getElem?_eq_getElem hj] at hfront
      rw [List.drop_eq_getElem_cons hj, List.take_succ_cons, Option.some.inj hfront, ← hout]
      rfl
    · have he : count - 1 - k = count - (k + 1) := by omega
      rw [he, Nat.add_assoc, Nat.add_comm 1] at hrest
      exact hrest

end

/-! ## the invariant -/

/-- The bytes of a read that succeeded. -/
def bytes : Except Int (List Byte) → List Byte
  | .ok b => b
  | .error _ => []

/-- All the bytes that successful reads returned. -/
def State.delivered (s : State) : List Byte := (s.reads.map bytes).flatten

theorem delivered_append (r : Except Int (List Byte)) :
    State.delivered { s with reads := s.reads ++ [r] } = s.delivered ++ bytes r := by
  simp [State.delivered]

structure Carries (N : Nat) (s : State) : Prop where
  ring : Ring.Holds N s.buf s.head s.tail s.count s.accepted s.delivered.length
  taken : s.delivered = s.accepted.take s.delivered.length
  offered : s.accepted.length ≤ s.offered
  dropped : s.dropped = (s.offered - s.accepted.length) % sizeMod

theorem carries_init {time : Nat} {buf : Nat → Byte} (hN : 0 < N) : Carries N (.init time buf) where
  ring := Ring.Holds.init hN
  taken := rfl
  offered := Nat.le_refl 0
  dropped := rfl

/-! ## the steps -/

section

variable (hs : Carries N s)

include hs

/-- The scheduler and the inbox are no concern of the bytes. -/
theorem Carries.congr {sched : Scheduler} {want signalling : Nat} {queued : Bool} {popping : Option NodeId}
    {read : NodeId → Read} : Carries N { s with sched, want, queued, signalling, popping, read } :=
  { hs with }

theorem Carries.push {data : List Byte} : Carries N (push N data s) := by
  have hcount := hs.ring.count_eq
  have hlen : (data.take (min data.length (N - s.count))).length = min data.length (N - s.count) := by simp
  have hfill := holds_fill (data.take (min data.length (N - s.count))) hs.ring (by
    have := hs.ring.count_le
    rw [hlen]
    omega)
  rw [hlen] at hfill
  refine ⟨hfill, ?_, ?_, ?_⟩
  · show s.delivered = (s.accepted ++ _).take s.delivered.length
    rw [List.take_append_of_le_length (by omega)]
    exact hs.taken
  · have := hs.offered
    simp only [Stream.push, List.length_append, hlen]
    omega
  · have := hs.offered
    simp only [Stream.push, List.length_append, hlen, hs.dropped]
    rw [Nat.mod_add_mod]
    congr 1
    omega

theorem Carries.write {data : List Byte} : Carries N (write N data s) := by
  unfold Stream.write
  simp only
  split
  · exact hs.push.congr
  · exact hs.push

theorem Carries.fail {code : Int} : Carries N (s.fail code) := by
  have hdel : (s.fail code).delivered = s.delivered := by simp [State.fail, delivered_append, bytes]
  exact ⟨hdel ▸ hs.ring, by rw [hdel]; exact hs.taken, hs.offered, hs.dropped⟩

theorem Carries.finish : Carries N (finish N n s) := by
  obtain ⟨hout, hring⟩ := holds_drain hs.ring (Nat.min_le_right _ _)
  have hcount := hs.ring.count_eq
  have hdel : (Stream.finish N n s).delivered =
      s.delivered ++ (drain N s.buf (min (s.read n).size s.count) s.head).1 := by
    simp [Stream.finish, Stream.pop, State.delivered, bytes]
  have hlen : (Stream.finish N n s).delivered.length = s.delivered.length + min (s.read n).size s.count := by
    rw [hdel, hout]
    simp
    omega
  refine ⟨?_, ?_, hs.offered, hs.dropped⟩
  · rw [hlen]
    exact hring
  · rw [hlen, hdel, hout]
    show _ = s.accepted.take _
    rw [List.take_add, ← hs.taken]

theorem Carries.read {h : Handle} {size minBytes timeout : Nat} {cancelled foreign : Bool} :
    Carries N (read N n h size minBytes timeout cancelled foreign s) := by
  unfold Stream.read
  simp only
  split
  · exact hs.fail
  split
  · exact hs.fail
  split
  · exact hs.congr
  split
  · exact hs.fail
  split
  · exact hs.fail
  split
  · exact hs.fail
  · exact hs.congr

theorem Carries.dispatch : Carries N (dispatch s) := by
  unfold Stream.dispatch
  split
  · exact hs
  · split
    · exact hs.congr
    · exact hs

theorem Carries.step {e : Event} (h : Step N e s s') : Carries N s' := by
  cases e with
  | write data =>
    cases h
    exact hs.write
  | signal =>
    obtain ⟨-, rfl⟩ := of_guard h
    exact hs.congr
  | read n c size minBytes timeout cancelled foreign =>
    obtain ⟨-, rfl⟩ := of_guard h
    exact hs.read
  | finish =>
    obtain ⟨n, -, rfl⟩ := Option.map_eq_some_iff.mp h
    exact hs.finish
  | dispatch =>
    obtain ⟨-, rfl⟩ := of_guard h
    exact hs.congr.dispatch
  | resume =>
    obtain ⟨-, ⟨n, t⟩, -, rfl⟩ := of_guard_map h
    simp only
    split
    · exact hs.congr.fail
    · exact hs.congr
  | background b =>
    obtain ⟨-, t, -, rfl⟩ := of_guard_map h
    exact hs.congr

end

/-! ## a read that fails -/

/-- The ring of `s'` is that of `s`. -/
def SameRing (s s' : State) : Prop :=
  s'.buf = s.buf ∧ s'.head = s.head ∧ s'.tail = s.tail ∧ s'.count = s.count

theorem sameRing_of_error {e : Event} {code : Int} (h : Step N e s s') (hr : s'.reads = s.reads ++ [.error code]) :
    SameRing s s' := by
  cases e with
  | write data =>
    cases h
    unfold write at hr
    simp only at hr
    split at hr <;> simp [push] at hr
  | finish =>
    obtain ⟨n, -, rfl⟩ := Option.map_eq_some_iff.mp h
    simp [finish, pop] at hr
  | signal =>
    obtain ⟨-, rfl⟩ := of_guard h
    exact ⟨rfl, rfl, rfl, rfl⟩
  | read n c size minBytes timeout cancelled foreign =>
    obtain ⟨-, rfl⟩ := of_guard h
    unfold read
    simp only
    repeat' split
    all_goals exact ⟨rfl, rfl, rfl, rfl⟩
  | dispatch =>
    obtain ⟨-, rfl⟩ := of_guard h
    unfold dispatch
    split
    · exact ⟨rfl, rfl, rfl, rfl⟩
    · split <;> exact ⟨rfl, rfl, rfl, rfl⟩
  | resume =>
    obtain ⟨-, ⟨n, t⟩, -, rfl⟩ := of_guard_map h
    simp only
    split <;> exact ⟨rfl, rfl, rfl, rfl⟩
  | background b =>
    obtain ⟨-, t, -, rfl⟩ := of_guard_map h
    exact ⟨rfl, rfl, rfl, rfl⟩

/-! ## the main result -/

/-- **A stream delivers what it accepted**: the bytes of the successful reads are, in order, the first ones
of those that were accepted; as long as fewer than `2 ^ 32` bytes were dropped, the bytes offered are those
accepted and those counted as dropped; what is accepted and not read yet is in the ring, which holds at most
`N` bytes with its two indices inside; and a read that fails leaves the ring alone. -/
theorem stream_delivers (N time : Nat) (buf : Nat → Byte) (hN : 0 < N) (s : State)
    (h : Run (Step N) (.init time buf) s) :
    s.delivered <+: s.accepted ∧
    (s.offered < s.accepted.length + sizeMod → s.offered = s.accepted.length + s.dropped) ∧
    (s.delivered.length + s.count = s.accepted.length ∧ s.count ≤ N) ∧
    (s.head < N ∧ s.tail < N) ∧
    ∀ e s' code, Step N e s s' → s'.reads = s.reads ++ [.error code] → SameRing s s' := by
  have hs : Carries N s := h.keeps (fun _ _ _ hs hstep => hs.step hstep) (carries_init hN)
  refine ⟨?_, fun hfew => ?_, ⟨hs.ring.count_eq, hs.ring.count_le⟩, ⟨hs.ring.head_lt, hs.ring.tail_lt⟩,
    fun e s' code hstep hr => sameRing_of_error hstep hr⟩
  · rw [hs.taken]
    exact List.take_prefix _ _
  · have := hs.offered
    rw [hs.dropped, Nat.mod_eq_of_lt (by omega)]
    omega

/-- Three bytes are written to a ring of two; a coroutine reads one. -/
def oneRead : Reached (Step 2) (.init 0 fun _ => 0) fun s =>
    s.accepted = [1, 2] ∧ s.dropped = 1 ∧ s.delivered = [1] ∧ s.offered = 3 :=
  reached (fun _ _ _ h => h)
    [.background (.enter 7), .read 0 7 1 1 0 false false, .write [1, 2, 3], .signal, .dispatch, .resume, .finish]
    (by decide +kernel)

theorem oneRead_delivers : ∃ s, Run (Step 2) (.init 0 fun _ => 0) s ∧ s.delivered = [1] ∧ s.delivered <+: s.accepted ∧
    s.offered = s.accepted.length + s.dropped := by
  obtain ⟨s, hrun, ha, -, hd, ho⟩ := oneRead
  have h := stream_delivers 2 0 (fun _ => 0) (by decide) s hrun
  exact ⟨s, hrun, hd, h.1, h.2.1 (by rw [ho, ha]; decide)⟩

/-! ## the counter overflows -/

variable {data : List Byte}

theorem write_offered : (write N data s).offered = s.offered + data.length := by
  unfold write
  simp only
  split <;> rfl

theorem write_dropped :
    (write N data s).dropped = (s.dropped + (data.length - min data.length (N - s.count))) % sizeMod := by
  unfold write
  simp only
  split <;> rfl

theorem write_count : (write N data s).count = s.count + min data.length (N - s.count) := by
  unfold write
  simp only
  split <;> rfl

theorem write_accepted :
    (write N data s).accepted = s.accepted ++ data.take (min data.length (N - s.count)) := by
  unfold write
  simp only
  split <;> rfl

/-- `k + 1` writes of one byte to an empty ring of one byte: the first one is accepted, all others are dropped. -/
theorem run_small_writes (k : Nat) : ∃ s, Run (Meeting (Step 1) fun e _ => e = .write [0]) (.init 0 fun _ => 0) s ∧
    s.offered = k + 1 ∧ s.accepted = [0] ∧ s.count = 1 ∧ s.dropped = k % sizeMod := by
  induction k with
  | zero => exact ⟨_, Run.one (e := .write [0]) ⟨rfl, rfl⟩, rfl, rfl, rfl, rfl⟩
  | succ k ih =>
    obtain ⟨s, hrun, ho, ha, hc, hd⟩ := ih
    refine ⟨write 1 [0] s, hrun.step (e := .write [0]) ⟨rfl, rfl⟩, ?_, ?_, ?_, ?_⟩
    · rw [write_offered, ho]
      rfl
    · rw [write_accepted, hc, ha]
      rfl
    · rw [write_count, hc]
      rfl
    · rw [write_dropped, hc, hd]
      exact Nat.mod_add_mod k sizeMod 1

/-- To a ring of one byte `2 ^ 32 + 1` bytes are written, one in each call.  The first one is accepted, and the
count of dropped bytes is back at zero. -/
theorem dropped_wraps : ∃ s, Run (Meeting (Step 1) fun e _ => e = .write [0]) (.init 0 fun _ => 0) s ∧
    s.offered = 2 ^ 32 + 1 ∧ s.accepted.length = 1 ∧ s.dropped = 0 := by
  obtain ⟨s, hrun, ho, ha, -, hd⟩ := run_small_writes (2 ^ 32)
  exact ⟨s, hrun, ho, by rw [ha]; rfl, hd.trans (by decide)⟩

end Isix.Co.Stream
