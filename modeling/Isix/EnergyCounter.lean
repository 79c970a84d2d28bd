import Isix.Lib.Runs

/-!
# Isix.EnergyCounter

The energy counters of the energy meter.  A counter has 64 bits, and a 64-bit
access is two accesses of 32 bits.  `read_atomic_accum_t` reads a counter twice
until both copies are the same; `calculate_energies` adds to it.  Either side can
be preempted between any two accesses.

`value` is what the counter holds: the sum of the updates that are complete.
`seen` has the values held since the read in progress began and `returned` what
the reads returned, the newest first; with each word read goes the value held
then.  The code has none of these.
-/

namespace Isix.EnergyCounter

open Runs

structure State where
  lo : Nat := 0
  hi : Nat := 0
  /-- the store in progress: whether the high word is missing, and the new value -/
  pending : Option (Bool × Nat) := none
  /-- `read_atomic_accum_t` runs; the words of `v1` and `v2` it has read -/
  active : Bool := false
  loads : List (Nat × Nat) := []
  value : Nat := 0
  seen : List Nat := []
  returned : List Nat := []

/-- A word of a value. -/
def word (high : Bool) (v : Nat) : Nat := if high then v / 2 ^ 32 else v % 2 ^ 32

def State.word (s : State) (high : Bool) : Nat := if high then s.hi else s.lo

def State.store (s : State) (high : Bool) (v : Nat) : State :=
  { s with
    lo := if high then s.lo else EnergyCounter.word false v
    hi := if high then EnergyCounter.word true v else s.hi }

/-- The value of two words in the order they were read. -/
def join (highFirst : Bool) (a b : Nat) : Nat := if highFirst then a * 2 ^ 32 + b else b * 2 ^ 32 + a

inductive Event
  /-- a call of `read_atomic_accum_t` begins -/
  | call
  /-- the next word of `v1` or `v2` -/
  | load
  /-- `while( v1 != v2 )` -/
  | compare
  /-- the first word of `ecnt += d` -/
  | store (high : Bool) (d : Nat)
  /-- the other word -/
  | finish

/-- One access of either side; `highFirst` is the order in which a copy is read. -/
def step (highFirst : Bool) : Event → State → Option State
  | .call, s => if s.active then none else some { s with active := true, loads := [], seen := [s.value] }
  | .load, s =>
    if s.active ∧ s.loads.length < 4 then
      some { s with loads := s.loads ++ [(s.word (highFirst ^^ s.loads.length % 2 = 1), s.value)] }
    else none
  | .compare, s =>
    match s.loads with
    | [(a, _), (b, _), (c, _), (d, _)] =>
      if ¬s.active then none
      else if a = c ∧ b = d then
        some { s with active := false, loads := [], returned := join highFirst a b :: s.returned }
      else some { s with loads := [] }
    | _ => none
  | .store high d, s =>
    if s.pending = none then
      let v := (s.value + d) % 2 ^ 64
      some { s.store high v with pending := some (!high, v) }
    else none
  | .finish, s => s.pending.map fun (high, v) => { s.store high v with pending := none, value := v, seen := v :: s.seen }

def Step (highFirst : Bool) (e : Event) (s s' : State) : Prop := step highFirst e s = some s'

/-- The reader does not run in the middle of an update, and the counter does not overflow. -/
def Whole : Event → State → Prop
  | .load, s => s.pending = none
  | .store _ d, s => s.value + d < 2 ^ 64
  | _, _ => True

instance : ∀ (e : Event) (s : State), Decidable (Whole e s)
  | .load, s => inferInstanceAs (Decidable (s.pending = none))
  | .store _ d, s => inferInstanceAs (Decidable (s.value + d < 2 ^ 64))
  | .call, _ | .compare, _ | .finish, _ => inferInstanceAs (Decidable True)

variable {highFirst : Bool} {s s' : State} {e : Event}

/-- The words that were read are those of the values held then, in the order of time. -/
structure Sound (highFirst : Bool) (s : State) : Prop where
  words : s.pending = none → ∀ high, s.word high = word high s.value
  store : ∀ high v, s.pending = some (high, v) → s.word (!high) = word (!high) v ∧ s.value ≤ v
  loads : ∀ k a v, s.loads[k]? = some (a, v) → a = word (highFirst ^^ k % 2 = 1) v
  held : s.active = true → (∀ l ∈ s.loads, l.2 ∈ s.seen) ∧ s.value ∈ s.seen
  ordered : (s.loads.map Prod.snd).Pairwise (· ≤ ·)
  newest : ∀ l ∈ s.loads, l.2 ≤ s.value
  returned : s.returned.Pairwise (· ≥ ·)
  latest : ∀ v ∈ s.returned, v ≤ s.value
  start : ∀ u ∈ s.returned, ∀ v ∈ s.seen, s.active = true → u ≤ v

/-- Of two equal copies the words belong to one value. -/
theorem join_mem {a b v₁ v₂ v₃ v₄ : Nat} (h₁₂ : v₁ ≤ v₂) (h₂₃ : v₂ ≤ v₃) (h₃₄ : v₃ ≤ v₄)
    (ha : a = word highFirst v₁) (hb : b = word (!highFirst) v₂) (hc : a = word highFirst v₃)
    (hd : b = word (!highFirst) v₄) : join highFirst a b = v₂ ∨ join highFirst a b = v₃ := by
  cases highFirst with
  | true =>
    -- the high word was the same all the time up to `v₃`
    left
    simp only [word, join, Bool.not_true, if_true, Bool.false_eq_true, if_false] at *
    omega
  | false =>
    right
    simp only [word, join, Bool.not_false, if_true, Bool.false_eq_true, if_false] at *
    omega

theorem Sound.init : Sound highFirst {} := by
  constructor <;> simp [word, State.word]

/-- A word is read while no update is in progress. -/
theorem Sound.load (h : Sound highFirst s) (hw : s.pending = none) :
    Sound highFirst { s with loads := s.loads ++ [(s.word (highFirst ^^ s.loads.length % 2 = 1), s.value)] } where
  words := h.words
  store := h.store
  loads k a v hk := by
    rw [List.getElem?_append] at hk
    split at hk
    · exact h.loads k a v hk
    next hlen =>
      obtain ⟨hk, heq⟩ : k - s.loads.length = 0 ∧ _ := by simpa [List.getElem?_singleton] using hk
      rw [← heq.1, ← heq.2, h.words hw, show k = s.loads.length by omega]
  held ha := by
    have hs := h.held ha
    refine ⟨fun l hl => ?_, hs.2⟩
    rcases List.mem_append.mp hl with hl | hl
    · exact hs.1 l hl
    · rw [List.mem_singleton.mp hl]
      exact hs.2
  ordered := by
    rw [List.map_append, List.pairwise_append]
    refine ⟨h.ordered, List.pairwise_singleton .., fun v hv u hu => ?_⟩
    obtain ⟨l, hl, rfl⟩ := List.mem_map.mp hv
    exact List.mem_singleton.mp hu ▸ h.newest l hl
  newest l hl := by
    rcases List.mem_append.mp hl with hl | hl
    · exact h.newest l hl
    · rw [List.mem_singleton.mp hl]
  returned := h.returned
  latest := h.latest
  start := h.start

/-- The copies agree: the value that is returned was held. -/
theorem Sound.agrees (h : Sound highFirst s) (ha : s.active = true) {a b v₁ v₂ v₃ v₄ : Nat}
    (hl : s.loads = [(a, v₁), (b, v₂), (a, v₃), (b, v₄)]) :
    join highFirst a b ∈ s.seen ∧ join highFirst a b ≤ s.value := by
  have hord := h.ordered
  have hheld := (h.held ha).1
  have hnew := h.newest
  have hword := h.loads
  rw [hl] at hord hheld hnew hword
  simp only [List.map_cons, List.map_nil, List.pairwise_cons, List.mem_cons, forall_eq_or_imp] at hord hheld hnew
  have hv : join highFirst a b = v₂ ∨ join highFirst a b = v₃ :=
    join_mem hord.1.1 hord.2.1.1 hord.2.2.1.1 (by simpa using hword 0 a v₁ rfl) (by simpa using hword 1 b v₂ rfl)
      (by simpa using hword 2 a v₃ rfl) (by simpa using hword 3 b v₄ rfl)
  rcases hv with hv | hv
  · exact hv ▸ ⟨hheld.2.1, hnew.2.1⟩
  · exact hv ▸ ⟨hheld.2.2.1, hnew.2.2.1⟩

/-- One word of an update. -/
theorem word_store {high w : Bool} {v : Nat} :
    (s.store high v).word w = if w = high then word w v else s.word w := by
  cases high <;> cases w <;> rfl

theorem Sound.store_first (h : Sound highFirst s) {high : Bool} {v : Nat} (hv : s.value ≤ v) :
    Sound highFirst { s.store high v with pending := some (!high, v) } where
  words hn := absurd hn (by simp)
  store w u hs := by
    obtain ⟨rfl, rfl⟩ : (!high) = w ∧ v = u := by simpa using hs
    exact ⟨word_store.trans (by simp), hv⟩
  loads := h.loads
  held := h.held
  ordered := h.ordered
  newest := h.newest
  returned := h.returned
  latest := h.latest
  start := h.start

theorem Sound.store_last (h : Sound highFirst s) {high : Bool} {v : Nat} (hp : s.pending = some (high, v)) :
    Sound highFirst { s.store high v with pending := none, value := v, seen := v :: s.seen } := by
  obtain ⟨hother, hle⟩ := h.store high v hp
  exact
    { words := fun _ w => by
        refine word_store.trans ?_
        split
        · rfl
        next hne => rw [show w = !high by cases w <;> cases high <;> simp_all, hother]
      store := fun _ _ hs => by cases hs
      loads := h.loads
      held := fun ha => ⟨fun l hl => List.mem_cons_of_mem _ ((h.held ha).1 l hl), List.mem_cons_self⟩
      ordered := h.ordered
      newest := fun l hl => (h.newest l hl).trans hle
      returned := h.returned
      latest := fun u hu => (h.latest u hu).trans hle
      start := fun u hu w hw ha => by
        rcases List.mem_cons.mp hw with rfl | hw
        · exact (h.latest u hu).trans hle
        · exact h.start u hu w hw ha }

theorem Sound.step (h : Sound highFirst s) (hs : Meeting (Step highFirst) Whole e s s') : Sound highFirst s' := by
  obtain ⟨hs, hw⟩ := hs
  unfold Step at hs
  cases e with
  | call =>
    simp only [EnergyCounter.step] at hs
    split at hs
    · cases hs
    · cases hs
      exact ⟨h.words, h.store, by simp, by simp, .nil, by simp, h.returned, h.latest, by simpa using h.latest⟩
  | load =>
    obtain ⟨-, rfl⟩ := of_guard hs
    exact h.load hw
  | compare =>
    simp only [EnergyCounter.step] at hs
    split at hs
    next a v₁ b v₂ c v₃ d v₄ hl =>
      split at hs
      · cases hs
      next ha =>
        split at hs
        next heq =>
          cases hs
          obtain ⟨rfl, rfl⟩ := heq
          obtain ⟨hmem, hle⟩ := h.agrees (not_not.mp ha) hl
          refine ⟨h.words, h.store, by simp, by simp, .nil, by simp, ?_, ?_, by simp⟩
          · exact List.pairwise_cons.mpr ⟨fun v hv => h.start v hv _ hmem (not_not.mp ha), h.returned⟩
          · simpa using ⟨hle, h.latest⟩
        next =>
          cases hs
          exact { h with loads := by simp, held := fun ha => ⟨by simp, (h.held ha).2⟩, ordered := .nil, newest := by simp }
    · cases hs
  | store high d =>
    obtain ⟨-, rfl⟩ := of_guard hs
    exact h.store_first (by rw [Nat.mod_eq_of_lt hw]; exact Nat.le_add_right ..)
  | finish =>
    obtain ⟨⟨high, v⟩, hp, rfl⟩ := Option.map_eq_some_iff.mp hs
    exact h.store_last hp

/-- **Reads are not torn**: if the reader never runs between the two stores of an update, and the counter does not
overflow, a read returns a value the counter held since the read began, and no read returns less than an earlier
one. -/
theorem reads_not_torn (highFirst : Bool) (hr : Run (Meeting (Step highFirst) Whole) {} s) :
    s.returned.Pairwise (· ≥ ·) ∧
      ∀ s', Step highFirst .compare s s' → s'.active = true ∨ ∃ v ∈ s.seen, s'.returned = v :: s.returned := by
  have h : Sound highFirst s := hr.keeps (fun _ _ _ h hs => h.step hs) Sound.init
  refine ⟨h.returned, fun s' hs => ?_⟩
  simp only [Step, EnergyCounter.step] at hs
  split at hs
  next a v₁ b v₂ c v₃ d v₄ hl =>
    split at hs
    · cases hs
    next ha =>
      split at hs
      next heq =>
        cases hs
        obtain ⟨rfl, rfl⟩ := heq
        exact .inr ⟨_, (h.agrees (not_not.mp ha) hl).1, rfl⟩
      next =>
        cases hs
        exact .inl (not_not.mp ha)
  · cases hs

/-- A counter that passes `2 ^ 32` between two reads. -/
def grown : Reached (Meeting (Step false) Whole) {} fun s =>
    s.loads.length = 4 ∧ s.returned = [2 ^ 32 - 1] ∧ s.seen = [2 ^ 32 + 4, 2 ^ 32 - 1] :=
  reached (meeting_of_guarded fun _ _ _ => id)
    [.store false (2 ^ 32 - 1), .finish, .call, .load, .load, .load, .load, .compare, .call, .load, .store true 5,
      .finish, .load, .load, .load, .compare, .load, .load, .load, .load] (by decide +kernel)

theorem grown_not_torn : grown.state.returned.Pairwise (· ≥ ·) ∧ ∀ s', Step false .compare grown.state s' →
    s'.active = true ∨ ∃ v ∈ grown.state.seen, s'.returned = v :: grown.state.returned :=
  reads_not_torn false grown.run

/-- A reader that preempts the update to `2 ^ 32` between its two stores reads 0 twice: less than the read before, and
a value the counter did not hold then. -/
theorem torn_read : ∃ s, Run (Step false) {} s ∧ s.returned = [0, 2 ^ 32 - 1] ∧ s.seen = [2 ^ 32 - 1] :=
  exists_run (fun _ _ _ => id)
    [.store false (2 ^ 32 - 1), .finish, .call, .load, .load, .load, .load, .compare, .store false 1, .call, .load, .load,
      .load, .load, .compare] (by decide +kernel)

end Isix.EnergyCounter
