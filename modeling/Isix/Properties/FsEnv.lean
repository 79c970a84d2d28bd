import Isix.Properties.FsRuns

/-!
# Isix.Properties.FsEnv

The environment store is a map.  With wear levelling every run of calls is served
with the values of the history, unless a value is set for a name that is stored and
does not fit: the old value is deleted before.  Without wear levelling this holds as
long as there is room, since a full store is reported as success; only a value of
one cluster that cannot grow is refused.
`format` makes the map empty, if the first bank is in use when it is called.
-/

namespace Isix.FsEnv

open Flash Memory Runs

section

variable {cfg : Config} {s : State} {cells : Cells} {m : Nat → Option File} {id id' n : Nat} {d : List UInt8}

/-- Names are apart: what is stored under one does not depend on the others. -/
theorem Kept.read_other {s' : State} {m' : Nat → Option File} (hs : Stored cfg s.obj s.cells m) (hc : cfg.Ok)
    (hs' : Stored cfg s'.obj s'.cells m') (hm : m' (id + 1) = m (id + 1)) (hid : id + 1 < 2 ^ 32) (hn : n ≤ 65535) :
    s'.read cfg id n = s.read cfg id n := by
  rw [State.read, State.medium, (hs'.ends_get hc hid).run.1.1 hn, State.read, State.medium,
    (hs.ends_get hc hid).run.1.1 hn, hm]

end

/-! ## evaluation -/

instance (cfg : Config) (s : State) (call : Call) : Decidable (call.Safe cfg s) := by
  cases call <;> unfold Call.Safe <;> infer_instance

def step? (cfg : Config) (call : Call) (s : State) : Option State :=
  if call.Safe cfg s then some (exec cfg s call) else none

theorem step_of_step? (cfg : Config) (call : Call) (s s' : State) (h : step? cfg call s = some s') : Step cfg call s s' := by
  unfold step? at h
  split at h
  · rename_i hsafe
    cases h
    exact ⟨hsafe, rfl⟩
  · cases h

/-! ## with wear levelling -/

/-- **Room**: without wear levelling names have the values of the history in every run
where each `set` has room or is for a value of one cluster that cannot grow.  With
room a `set` is successful, the value can be read, and the other names keep theirs;
where a value cannot grow, it is refused and nothing changes. -/
theorem plain_env_is_map (cfg : Config) (hc : cfg.Ok) (hwear : cfg.wear = false) (cells : Cells) (hh : NoHeader cfg cells)
    (s : State) (hr : Run (Step cfg) (State.new cells) s) :
    (∀ id n, id + 1 < 2 ^ 32 → n ≤ 65535 → s.read cfg id n = answer (s.vals id) n) ∧
      (∀ id buf, id + 1 < nodeEnd → buf.length ≤ 65535 → cfg.need buf ≤ (s.room cfg id).length →
        (set cfg id buf s.medium).1 = some errSuccess ∧
        (∀ n, buf.length ≤ n → n ≤ 65535 → (exec cfg s (.set id buf)).read cfg id n = ((buf.length : Int), buf)) ∧
        ∀ id' n, id' + 1 < 2 ^ 32 → id' ≠ id → n ≤ 65535 →
          (exec cfg s (.set id buf)).read cfg id' n = s.read cfg id' n) ∧
      ∀ id buf, id + 1 < nodeEnd → buf.length ≤ 65535 → s.chain cfg id ≠ [] → (s.room cfg id).length = 1 →
        1 < cfg.need buf → (set cfg id buf s.medium).1 = some errFsFull ∧
        ∀ id' n, id' + 1 < 2 ^ 32 → n ≤ 65535 → (exec cfg s (.set id buf)).read cfg id' n = s.read cfg id' n := by
  have hk := kept_run hc (kept_new hh) hr
  refine ⟨fun id n hid hn => hk.read hc hid hn, fun id buf hlt hshort hroom => ?_,
    fun id buf hlt hshort hchain hroom hneed => ?_⟩
  case refine_2 =>
    obtain ⟨m, hs, _⟩ := hk
    obtain ⟨hs', hret⟩ := hs.set_plain_full hc hwear hlt hshort hchain hroom hneed
    exact ⟨hret, fun id' n hid' hn => Kept.read_other hs hc hs' rfl hid' hn⟩
  have hid : id + 1 < 2 ^ 32 := by
    unfold nodeEnd nodeUnused at hlt
    omega
  have hsafe : Call.Safe cfg s (.set id buf) := ⟨hid, fun _ _ => ⟨by simp [hwear], fun _ => .inl hroom⟩⟩
  have hk' := hk.set hc hsafe
  obtain ⟨m, hs, ha⟩ := hk
  obtain ⟨v, hs', hret, hv⟩ := hs.set_plain hc hwear hlt hshort hroom
  have hvals : (exec cfg s (.set id buf)).vals = Function.update s.vals id (some buf) := if_pos hret
  refine ⟨hret, fun n hle hn => ?_, fun id' n hid' hne hn => ?_⟩
  · rw [hk'.read hc hid hn, hvals, Function.update_self, answer, if_neg (by omega)]
  · exact Kept.read_other hs hc hs' (Function.update_of_ne (by omega) _ _) hid' hn

/-- The same EEPROM without wear levelling. -/
def plainEeprom : Config := ⟨⟨32, 4, true⟩, false, 0⟩

theorem plainEeprom_ok : plainEeprom.Ok := by
  refine ⟨by decide, .inl (by decide), by decide, by decide, by decide⟩

def longValue : Reached (Step plainEeprom) (State.new fun _ _ => 0xFF) fun s =>
    plainEeprom.need [5, 6] ≤ (s.room plainEeprom 0).length :=
  reached (step_of_step? plainEeprom) [.set 0 (List.replicate 60 7)] (by decide +kernel)

/-- A value of one cluster is written over one of three. -/
theorem plainEeprom_is_map : ∃ s, Run (Step plainEeprom) (State.new fun _ _ => 0xFF) s ∧
    (set plainEeprom 0 [5, 6] s.medium).1 = some errSuccess ∧
    (exec plainEeprom s (.set 0 [5, 6])).read plainEeprom 0 16 = (2, [5, 6]) := by
  obtain ⟨s, hr, hroom⟩ := longValue
  have hset := (plain_env_is_map plainEeprom plainEeprom_ok (by decide) _ ⟨by decide, by decide⟩ s hr).2.1 0 [5, 6]
    (by decide) (by decide) hroom
  exact ⟨s, hr, hset.1, hset.2.1 16 (by decide) (by decide)⟩

def fullStore : Reached (Step plainEeprom) (State.new fun _ _ => 0xFF) fun s =>
    (set plainEeprom 3 [9] s.medium).1 = some errSuccess ∧
    (exec plainEeprom s (.set 3 [9])).read plainEeprom 3 16 = (errInvalidId, []) :=
  reached (step_of_step? plainEeprom) [.set 0 [1], .set 1 [2], .set 2 [3]] (by decide +kernel)

/-- In a full store `set` is successful, and nothing is stored. -/
theorem full_store_succeeds : ∃ s, Run (Step plainEeprom) (State.new fun _ _ => 0xFF) s ∧
    (set plainEeprom 3 [9] s.medium).1 = some errSuccess ∧
    (exec plainEeprom s (.set 3 [9])).read plainEeprom 3 16 = (errInvalidId, []) :=
  fullStore.exists

/-! ## format -/

/-- **Format**: if the first bank is in use, `format` is successful and leaves no value.
From then on names have the values that are set, in every run and over new objects. -/
theorem format_resets (cfg : Config) (hc : cfg.Ok) (cells : Cells) (hh : NoHeader cfg cells) (s : State)
    (hr : Run (Step cfg) (State.new cells) s) (halt : s.obj.altPageInUse = false) :
    (format cfg s.medium).1 = errSuccess ∧
      (∀ id n, id + 1 < 2 ^ 32 → n ≤ 65535 → (exec cfg s .format).read cfg id n = (errInvalidId, [])) ∧
      ∀ s', Run (Step cfg) (exec cfg s .format) s' → ∀ id n, id + 1 < 2 ^ 32 → n ≤ 65535 →
        s'.read cfg id n = answer (s'.vals id) n := by
  have hk := kept_run hc (kept_new hh) hr
  obtain ⟨hret, hvals, hk'⟩ := hk.format hc halt
  refine ⟨hret, fun id n hid hn => ?_, fun s' hr' id n hid hn => (kept_run hc hk' hr').read hc hid hn⟩
  rw [hk'.read hc hid hn, hvals]
  rfl

/-- Flash with two banks of four clusters. -/
def smallFlash : Config := ⟨⟨64, 4, false⟩, true, 0⟩

theorem smallFlash_ok : smallFlash.Ok := by
  refine ⟨by decide, .inr (by decide), by decide, by decide, by decide⟩

def oneValue : Reached (Step smallFlash) (State.new fun _ _ => 0xFF) fun s => s.vals 0 = some [1] ∧
    s.obj.altPageInUse = false ∧ ((runList (step? smallFlash) [.set 1 [2], .remount] (exec smallFlash s .format)).any
      fun s' => decide (s'.vals 0 = none ∧ s'.vals 1 = some [2])) = true :=
  reached (step_of_step? smallFlash) [.set 0 [1]] (by decide +kernel)

/-- A value is set after a format, and read by a new object. -/
theorem smallFlash_resets : ∃ s s', Run (Step smallFlash) (State.new fun _ _ => 0xFF) s ∧ s.vals 0 = some [1] ∧
    Run (Step smallFlash) (exec smallFlash s .format) s' ∧ s'.read smallFlash 0 16 = (errInvalidId, []) ∧
    s'.read smallFlash 1 16 = (1, [2]) := by
  obtain ⟨s, hr, hv, halt, hrest⟩ := oneValue
  obtain ⟨s', hr', h0, h1⟩ := exists_run (step_of_step? smallFlash) _ hrest
  have hread := (format_resets smallFlash smallFlash_ok _ ⟨by decide, by decide⟩ s hr halt).2.2 s' hr'
  refine ⟨s, s', hr, hv, hr', ?_, ?_⟩
  · rw [hread 0 16 (by decide) (by decide), h0]
    rfl
  · rw [hread 1 16 (by decide) (by decide), h1]
    rfl

def secondBank : Reached (Step smallFlash) (State.new fun _ _ => 0xFF) fun s =>
    (format smallFlash s.medium).1 = errSuccess ∧
    (set smallFlash 1 [2] (exec smallFlash s .format).medium).1 = some errSuccess ∧
    (exec smallFlash (exec smallFlash (exec smallFlash s .format) (.set 1 [2])) .remount).read smallFlash 1 16 =
      (errInvalidId, []) :=
  reached (step_of_step? smallFlash) [.set 0 [1], .set 0 [2], .set 0 [3], .set 0 [4]] (by decide +kernel)

/-- With the second bank in use, a value that is set after a format is gone for a new object. -/
theorem format_on_second_bank : ∃ s, Run (Step smallFlash) (State.new fun _ _ => 0xFF) s ∧
    (format smallFlash s.medium).1 = errSuccess ∧
    (set smallFlash 1 [2] (exec smallFlash s .format).medium).1 = some errSuccess ∧
    (exec smallFlash (exec smallFlash (exec smallFlash s .format) (.set 1 [2])) .remount).read smallFlash 1 16 =
      (errInvalidId, []) :=
  secondBank.exists

end Isix.FsEnv
