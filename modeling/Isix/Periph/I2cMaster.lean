import Isix.Lib.Runs
import Mathlib.Data.Nat.Bitwise

/-!
# Isix.Periph.I2cMaster

The I2C driver in interrupt mode (`stm32_i2c_v1.cpp`): one transaction at a time,
under the mutex, which starts the bus and waits for a token that the interrupt
handler gives when the transfer is over.

`phase` says which events the controller can raise next; it follows from what the
driver wrote to it.  A stop condition is only requested (`stop`) and made by the
controller later, so that events of the old phase are still possible until then.
`handed`, `delivered` and `stores` are what the transaction has passed since its
own start condition: the bytes given to the controller, those the controller gave,
and the stores to the receive buffer.
-/

namespace Isix.Periph.I2cMaster

open Runs

/-- `blk::transfer` -/
inductive Transfer
  | rx (size : Nat)
  | tx (buf : List UInt8)
  | trx (buf : List UInt8) (size : Nat)
deriving DecidableEq

namespace Transfer

def out : Transfer → List UInt8
  | rx _ => []
  | tx buf | trx buf _ => buf

def size : Transfer → Nat
  | tx _ => 0
  | rx n | trx _ n => n

/-- Each size is at least 1. -/
def Sized : Transfer → Prop
  | rx n => 0 < n
  | tx buf => buf ≠ []
  | trx buf n => buf ≠ [] ∧ 0 < n

instance : ∀ t, Decidable (Sized t)
  | rx n => inferInstanceAs (Decidable (0 < n))
  | tx buf => inferInstanceAs (Decidable (buf ≠ []))
  | trx buf n => inferInstanceAs (Decidable (buf ≠ [] ∧ 0 < n))

theorem Sized.size_pos {t : Transfer} (h : t.Sized) (ho : t.out = []) : 0 < t.size := by
  cases t with
  | rx n => exact h
  | tx buf => exact absurd ho h
  | trx buf n => exact h.2

end Transfer

/-- What the controller is doing. -/
inductive Phase
  | idle
  /-- a start condition; `again` if it follows bytes that were sent -/
  | start (again : Bool)
  | address (read : Bool)
  | sending
  | receiving
deriving DecidableEq

/-- The values of the status registers that the handler tells apart. -/
inductive Status
  | modeSelect
  | transmitterModeSelected
  | byteTransmitted
  | receiverModeSelected
  | byteReceived (btf : Bool) (b : UInt8)
  /-- the extra states, which are ignored -/
  | extra
  | other
deriving DecidableEq

/-- How far `transaction` is. -/
inductive Call
  | none
  | configured
  /-- the error interrupt is enabled -/
  | armed
  /-- the event interrupt is, too -/
  | enabled
  | waiting
deriving DecidableEq

structure State where
  phase : Phase := .idle
  stop : Bool := false
  itEvt : Bool := false
  itErr : Bool := false
  itBuf : Bool := false
  /-- bit 0 of `m_addr` -/
  read : Bool := false
  hwError : Nat := 0
  txdsize : Nat := 0
  rxdsize : Nat := 0
  datacnt : Nat := 0
  wait : Nat := 0
  call : Call := .none
  data : Transfer := .rx 0
  result : Option Int := none
  handed : List UInt8 := []
  delivered : List UInt8 := []
  stores : List (Nat × UInt8) := []
  /-- an index was outside a buffer -/
  fault : Bool := false

namespace State

/-- `LL_I2C_TransmitData8( m_txdata[m_datacnt++] )` -/
def transmit (s : State) : State :=
  { s with
    phase := .sending
    handed := s.handed ++ (s.data.out[s.datacnt]?).toList
    fault := s.fault || decide (s.data.out.length ≤ s.datacnt)
    datacnt := (s.datacnt + 1) % 2 ^ 16 }

/-- `m_rxdata[m_datacnt++] = LL_I2C_ReceiveData8()` -/
def receive (s : State) (b : UInt8) : State :=
  { s with
    delivered := s.delivered ++ [b]
    stores := s.stores ++ [(s.datacnt, b)]
    fault := s.fault || decide (s.data.size ≤ s.datacnt)
    datacnt := (s.datacnt + 1) % 2 ^ 16 }

/-- `ev_finalize` -/
def evFinalize (s : State) (invState : Bool) : State :=
  { s with
    stop := true
    itBuf := false
    itEvt := false
    itErr := false
    hwError := if invState then s.hwError ||| 0x100 else s.hwError
    wait := min 1 (s.wait + 1) }

end State

/-- `interrupt_handler`, for an event -/
def interruptHandler (s : State) : Status → State
  | .modeSelect => { s with phase := .address s.read }
  | .transmitterModeSelected => s.transmit
  | .byteTransmitted =>
    if s.datacnt < s.txdsize then s.transmit
    else if s.rxdsize ≠ 0 then { s with read := true, phase := .start true }
    else s.evFinalize false
  | .receiverModeSelected => { s with itBuf := true, datacnt := 0, phase := .receiving }
  | .byteReceived _ b =>
    let s := if s.datacnt < s.rxdsize then s.receive b else s
    if s.rxdsize ≤ s.datacnt then s.evFinalize false else s
  | .extra => s
  | .other => s.evFinalize true

/-- `handle_ev_error`; `flags` is `SR1 >> 8` -/
def handleEvError (s : State) (flags : Nat) : State := { s with hwError := flags }.evFinalize true

/-- What the controller can raise. -/
def Raises (s : State) : Status → Prop
  | .modeSelect => s.phase = .start false ∨ s.phase = .start true
  | .transmitterModeSelected => s.phase = .address false
  | .byteTransmitted => s.phase = .sending ∨ s.phase = .start true
  | .receiverModeSelected => s.phase = .address true
  | .byteReceived btf _ => s.phase = .receiving ∧ (btf = true ∨ s.itBuf = true)
  | .extra | .other => True

instance (s : State) : ∀ e, Decidable (Raises s e)
  | .modeSelect => inferInstanceAs (Decidable (_ ∨ _))
  | .transmitterModeSelected => inferInstanceAs (Decidable (_ = _))
  | .byteTransmitted => inferInstanceAs (Decidable (_ ∨ _))
  | .receiverModeSelected => inferInstanceAs (Decidable (_ = _))
  | .byteReceived _ _ => inferInstanceAs (Decidable (_ ∧ _))
  | .extra | .other => inferInstanceAs (Decidable True)

/-- `err_tbl` -/
def errTbl : List Int := [-527, -512, -513, -514, -515, -520, -516, -524, -518]

/-- `get_hwerror` -/
def getHwerror (hwError : Nat) : Int :=
  ((errTbl.zipIdx.find? fun (_, i) => hwError.testBit i).map Prod.fst).getD 0

inductive Event
  /-- the mutex is taken and the fields are set -/
  | transaction (data : Transfer)
  /-- `LL_I2C_EnableIT_ERR` -/
  | enableErr
  /-- `LL_I2C_EnableIT_EVT` -/
  | enableEvt
  /-- the start condition is requested -/
  | start
  | event (e : Status)
  | error (flags : Fin 256)
  | stopped
  /-- `m_wait.wait` returns, and then `transaction` -/
  | wake
  | timeout

def step : Event → State → Option State
  | .transaction data, s =>
    if s.call = .none ∧ data.Sized then
      some { s with
        call := .configured
        data := data
        read := data.out.isEmpty
        hwError := 0
        txdsize := data.out.length % 2 ^ 16
        rxdsize := data.size % 2 ^ 16 }
    else none
  | .enableErr, s =>
    if s.call = .configured then some { s with call := .armed, datacnt := 0, itErr := true } else none
  | .enableEvt, s => if s.call = .armed then some { s with call := .enabled, itEvt := true } else none
  | .start, s =>
    if s.call = .enabled then
      some { s with
        call := .waiting
        phase := .start false
        stop := false
        handed := []
        delivered := []
        stores := [] }
    else none
  | .event e, s => if s.itEvt ∧ Raises s e then some (interruptHandler s e) else none
  | .error flags, s => if s.itErr then some (handleEvError s flags) else none
  | .stopped, s => if s.stop then some { s with phase := .idle, stop := false } else none
  | .wake, s =>
    if s.call = .waiting ∧ 0 < s.wait then
      some { s with call := .none, wait := s.wait - 1, result := some (getHwerror s.hwError) }
    else none
  | .timeout, s =>
    if s.call = .waiting ∧ s.wait = 0 then some { s with call := .none, stop := true, result := some (-3) } else none

def Step (e : Event) (s s' : State) : Prop := step e s = some s'

/-! ## transactions -/

/-- All bytes of the transaction have passed, in order and once. -/
structure Complete (s : State) : Prop where
  handed : s.handed = s.data.out
  delivered : s.delivered.length = s.data.size
  stores : s.stores = s.delivered.mapIdx Prod.mk

/-- The transaction so far, while its interrupts are enabled. -/
def Progress (s : State) : Prop :=
  match s.phase with
  | .idle => False
  | .start false => s.stores = [] ∧ s.delivered = [] ∧ s.handed = [] ∧ s.datacnt = 0 ∧ s.read = s.data.out.isEmpty
  | .start true =>
    s.stores = [] ∧ s.delivered = [] ∧ s.handed = s.data.out ∧ 0 < s.data.size ∧ s.read = true ∧
      s.datacnt = s.data.out.length
  | .address false => s.stores = [] ∧ s.delivered = [] ∧ s.handed = [] ∧ s.datacnt = 0 ∧ s.data.out ≠ []
  | .address true => s.stores = [] ∧ s.delivered = [] ∧ s.handed = s.data.out ∧ 0 < s.data.size
  | .sending =>
    s.stores = [] ∧ s.delivered = [] ∧ s.handed = s.data.out.take s.datacnt ∧ s.datacnt ≤ s.data.out.length
  | .receiving =>
    s.stores = s.delivered.mapIdx Prod.mk ∧ s.delivered.length = s.datacnt ∧ s.handed = s.data.out ∧
      s.datacnt < s.data.size

/-- No interrupt is enabled and there is no token. -/
structure Quiet (s : State) : Prop where
  itEvt : s.itEvt = false
  itErr : s.itErr = false
  itBuf : s.itBuf = false
  wait : s.wait = 0

/-- The handler has finished the transfer. -/
structure Finished (s : State) : Prop where
  itEvt : s.itEvt = false
  itErr : s.itErr = false
  itBuf : s.itBuf = false
  wait : s.wait = 1
  outcome : s.hwError.testBit 8 = true ∨ s.call = .waiting ∧ Complete s

/-- The handler is at work. -/
structure Active (s : State) : Prop where
  wait : s.wait = 0
  hwError : s.hwError = 0
  progress : s.call = .enabled ∧ s.phase = .idle ∧ s.datacnt = 0 ∧ s.itBuf = false ∨
    s.call = .waiting ∧ s.stop = false ∧ Progress s

/-- The handler cannot be called for an event yet. -/
structure Armed (s : State) : Prop where
  itEvt : s.itEvt = false
  itBuf : s.itBuf = false
  wait : s.wait = 0
  hwError : s.hwError = 0
  datacnt : s.datacnt = 0

/-- The sizes of the transaction are in its fields. -/
structure Fits (s : State) : Prop where
  sized : s.data.Sized
  txdsize : s.txdsize = s.data.out.length
  rxdsize : s.rxdsize = s.data.size
  out : s.data.out.length < 2 ^ 16
  size : s.data.size < 2 ^ 16

structure Sound (s : State) : Prop where
  fault : s.fault = false
  fits : s.call ≠ .none → Fits s
  read : s.call = .configured ∨ s.call = .armed ∨ s.call = .enabled → s.read = s.data.out.isEmpty
  quiet : s.call = .none ∨ s.call = .configured → Quiet s
  clear : s.call = .configured → s.hwError = 0
  armed : s.call = .armed → Armed s
  busy : s.call = .enabled ∨ s.call = .waiting → Active s ∨ Finished s

/-- No transaction times out or has a size of more than 16 bits, each begins when the stop condition of the one before
is made, and no error interrupt comes before the event interrupt is enabled. -/
def Calm : Event → State → Prop
  | .transaction data, _ => data.out.length < 2 ^ 16 ∧ data.size < 2 ^ 16
  | .enableEvt, s => s.phase = .idle
  | .error _, s => s.call ≠ .armed
  | .timeout, _ => False
  | _, _ => True

instance : ∀ e s, Decidable (Calm e s)
  | .transaction _, _ => inferInstanceAs (Decidable (_ ∧ _))
  | .enableEvt, _ => inferInstanceAs (Decidable (_ = _))
  | .error _, _ => inferInstanceAs (Decidable (_ ≠ _))
  | .timeout, _ => inferInstanceAs (Decidable False)
  | .enableErr, _ | .start, _ | .event _, _ | .stopped, _ | .wake, _ => inferInstanceAs (Decidable True)

/-- An error is an error code. -/
theorem getHwerror_ne_zero {h : Nat} (hbit : h.testBit 8 = true) : getHwerror h ≠ 0 := by
  unfold getHwerror
  cases hf : errTbl.zipIdx.find? fun (_, i) => h.testBit i with
  | none =>
    have hnone := List.find?_eq_none.mp hf (-518, 8) (by decide)
    exact absurd hbit hnone
  | some p =>
    have hmem := List.mem_of_find?_eq_some hf
    have hall : ∀ p ∈ errTbl.zipIdx, p.1 ≠ 0 := by decide
    exact hall p hmem

variable {s s' : State}

/-- The handler ends the transfer. -/
theorem finalize (hwait : s.wait = 0) {inv : Bool} (ho : inv = true ∨ s.call = .waiting ∧ Complete s) :
    Finished (s.evFinalize inv) := by
  refine ⟨rfl, rfl, rfl, by simp [State.evFinalize, hwait], ?_⟩
  rcases ho with rfl | ⟨hcall, hc⟩
  · left
    have hbit : Nat.testBit 0x100 8 = true := by decide
    simp [State.evFinalize, Nat.testBit_or, hbit]
  · exact .inr ⟨hcall, hc.handed, hc.delivered, hc.stores⟩

/-- While a transaction is on, an interrupt changes the progress only. -/
structure Same (s s' : State) : Prop where
  call : s'.call = s.call
  data : s'.data = s.data
  txdsize : s'.txdsize = s.txdsize
  rxdsize : s'.rxdsize = s.rxdsize

theorem Sound.of_busy (h : Sound s) (hcall : s.call = .enabled ∨ s.call = .waiting) (hs : Same s s')
    (hf : s'.fault = false) (hr : s.call = .enabled → s'.read = s.read) (hb : Active s' ∨ Finished s') : Sound s' := by
  have hfits := h.fits (by rcases hcall with hc | hc <;> rw [hc] <;> decide)
  refine ⟨hf, fun _ => ?_, ?_, ?_, ?_, ?_, fun _ => hb⟩
  · rcases hfits with ⟨h₁, h₂, h₃, h₄, h₅⟩
    exact ⟨by rwa [hs.data], by rw [hs.txdsize, hs.data, h₂], by rw [hs.rxdsize, hs.data, h₃], by rwa [hs.data],
      by rwa [hs.data]⟩
  · rw [hs.call, hs.data]
    intro hc
    have hen : s.call = .enabled := by rcases hcall with h' | h' <;> simp_all
    rw [hr hen, h.read (.inr (.inr hen))]
  · rw [hs.call]
    intro hc
    rcases hcall with h' | h' <;> simp_all
  · rw [hs.call]
    intro hc
    rcases hcall with h' | h' <;> simp_all
  · rw [hs.call]
    intro hc
    rcases hcall with h' | h' <;> simp_all

theorem progress_transmit (hp : s.handed = s.data.out.take s.datacnt) (hlt : s.datacnt < s.data.out.length)
    (h16 : s.data.out.length < 2 ^ 16) (he : s.stores = [] ∧ s.delivered = []) (hf : s.fault = false) :
    Progress s.transmit ∧ s.transmit.fault = false := by
  have hmod : (s.datacnt + 1) % 2 ^ 16 = s.datacnt + 1 := Nat.mod_eq_of_lt (by omega)
  refine ⟨⟨he.1, he.2, ?_, ?_⟩, ?_⟩
  · simp only [State.transmit, hp, hmod]
    rw [List.take_add_one]
  · simp only [State.transmit, hmod]
    omega
  · simp only [State.transmit, hf, Bool.false_or, decide_eq_false_iff_not]
    omega

/-- The transaction has made its start condition, and waits. -/
structure AtWork (s : State) : Prop where
  sound : Sound s
  call : s.call = .waiting
  active : Active s
  stop : s.stop = false
  progress : Progress s

namespace AtWork

theorem fits (h : AtWork s) : Fits s := h.sound.fits (by rw [h.call]; decide)

/-- The handler goes on. -/
theorem goes (h : AtWork s) (hs : Same s s') (hf : s'.fault = false) (hw : s'.wait = s.wait)
    (he : s'.hwError = s.hwError) (hst : s'.stop = s.stop) (hp : Progress s') : Sound s' := by
  have hnot : s.call ≠ .enabled := by rw [h.call]; decide
  refine h.sound.of_busy (.inr h.call) hs hf (absurd · hnot)
    (.inl ⟨hw.trans h.active.wait, he.trans h.active.hwError, .inr ?_⟩)
  exact ⟨hs.call.trans h.call, hst.trans h.stop, hp⟩

/-- Or it is at the end. -/
theorem ends (h : AtWork s) {inv : Bool} (hs : Same s s') (hf : s'.fault = false) (hw : s'.wait = s.wait)
    (ho : inv = true ∨ Complete s') : Sound (s'.evFinalize inv) := by
  have hnot : s.call ≠ .enabled := by rw [h.call]; decide
  have hfin := finalize (hw.trans h.active.wait) (ho.imp_right fun hc => ⟨hs.call.trans h.call, hc⟩)
  exact h.sound.of_busy (.inr h.call) { hs with } hf (absurd · hnot) (.inr hfin)

theorem modeSelect (h : AtWork s) (hr : Raises s .modeSelect) : Sound (interruptHandler s .modeSelect) := by
  have hp := h.progress
  refine h.goes ⟨rfl, rfl, rfl, rfl⟩ h.sound.fault rfl rfl rfl ?_
  unfold Progress at hp
  rcases hr with hph | hph
  · rw [hph] at hp
    obtain ⟨h₁, h₂, h₃, h₄, h₅⟩ := hp
    unfold Progress interruptHandler
    rw [h₅]
    cases ho : s.data.out with
    | nil => exact ⟨h₁, h₂, h₃, h.fits.sized.size_pos ho⟩
    | cons b l => exact ⟨h₁, h₂, h₃, h₄, by simp⟩
  · rw [hph] at hp
    obtain ⟨h₁, h₂, h₃, h₄, h₅, h₆⟩ := hp
    unfold Progress interruptHandler
    rw [h₅]
    exact ⟨h₁, h₂, h₃, h₄⟩

theorem transmitterModeSelected (h : AtWork s) (hr : Raises s .transmitterModeSelected) :
    Sound (interruptHandler s .transmitterModeSelected) := by
  have hp := h.progress
  unfold Progress at hp
  rw [show s.phase = .address false from hr] at hp
  obtain ⟨h₁, h₂, h₃, h₄, h₅⟩ := hp
  have hlt : s.datacnt < s.data.out.length := by
    rw [h₄]
    exact List.length_pos_of_ne_nil h₅
  obtain ⟨hp', hf⟩ := progress_transmit (by simp [h₃, h₄]) hlt h.fits.out ⟨h₁, h₂⟩ h.sound.fault
  exact h.goes ⟨rfl, rfl, rfl, rfl⟩ hf rfl rfl rfl hp'

/-- All bytes are handed over: the second part of the transfer begins, or the transfer is over. -/
theorem handed (h : AtWork s) (he : s.stores = [] ∧ s.delivered = []) (hh : s.handed = s.data.out)
    (hd : s.datacnt = s.data.out.length) : Sound (interruptHandler s .byteTransmitted) := by
  have htx := h.fits.txdsize
  have hrx := h.fits.rxdsize
  rw [interruptHandler, if_neg (by omega)]
  split
  next hsz =>
    have hpos : 0 < s.data.size := by omega
    exact h.goes ⟨rfl, rfl, rfl, rfl⟩ h.sound.fault rfl rfl rfl ⟨he.1, he.2, hh, hpos, rfl, hd⟩
  next hsz =>
    have hnone : s.delivered.length = s.data.size := by
      rw [he.2, List.length_nil]
      omega
    exact h.ends ⟨rfl, rfl, rfl, rfl⟩ h.sound.fault rfl (.inr ⟨hh, hnone, by simp [he]⟩)

theorem byteTransmitted (h : AtWork s) (hr : Raises s .byteTransmitted) :
    Sound (interruptHandler s .byteTransmitted) := by
  have hp := h.progress
  have htx := h.fits.txdsize
  unfold Progress at hp
  rcases hr with hph | hph
  · rw [hph] at hp
    obtain ⟨h₁, h₂, h₃, h₄⟩ := hp
    by_cases hlt : s.datacnt < s.data.out.length
    · obtain ⟨hp', hf⟩ := progress_transmit h₃ hlt h.fits.out ⟨h₁, h₂⟩ h.sound.fault
      rw [interruptHandler, if_pos (by omega)]
      exact h.goes ⟨rfl, rfl, rfl, rfl⟩ hf rfl rfl rfl hp'
    · have hall : s.datacnt = s.data.out.length := by omega
      exact h.handed ⟨h₁, h₂⟩ (by rw [h₃, hall, List.take_length]) hall
  · rw [hph] at hp
    obtain ⟨h₁, h₂, h₃, -, -, h₆⟩ := hp
    exact h.handed ⟨h₁, h₂⟩ h₃ h₆

theorem receiverModeSelected (h : AtWork s) (hr : Raises s .receiverModeSelected) :
    Sound (interruptHandler s .receiverModeSelected) := by
  have hp := h.progress
  unfold Progress at hp
  rw [show s.phase = .address true from hr] at hp
  obtain ⟨h₁, h₂, h₃, h₄⟩ := hp
  refine h.goes ⟨rfl, rfl, rfl, rfl⟩ h.sound.fault rfl rfl rfl ⟨?_, ?_, h₃, h₄⟩
  · simp [interruptHandler, h₁, h₂]
  · simp [interruptHandler, h₂]

theorem byteReceived (h : AtWork s) {btf : Bool} {b : UInt8} (hr : Raises s (.byteReceived btf b)) :
    Sound (interruptHandler s (.byteReceived btf b)) := by
  have hp := h.progress
  unfold Progress at hp
  rw [hr.1] at hp
  obtain ⟨h₁, h₂, h₃, h₄⟩ := hp
  have hsize := h.fits.size
  have hrx := h.fits.rxdsize
  have hcnt : (s.receive b).datacnt = s.datacnt + 1 := Nat.mod_eq_of_lt (by omega)
  have hlen : (s.receive b).delivered.length = s.datacnt + 1 := by simp [State.receive, h₂]
  have hstores : (s.receive b).stores = (s.receive b).delivered.mapIdx Prod.mk := by
    simp [State.receive, h₁, List.mapIdx_concat, h₂]
  have hfault : (s.receive b).fault = false := by
    simp only [State.receive, h.sound.fault, Bool.false_or, decide_eq_false_iff_not]
    omega
  have hsame : Same s (s.receive b) := ⟨rfl, rfl, rfl, rfl⟩
  have hrx' : (s.receive b).rxdsize = s.data.size := hrx
  have hin : (if s.datacnt < s.rxdsize then s.receive b else s) = s.receive b := if_pos (by omega)
  simp only [interruptHandler, hin]
  by_cases hle : (s.receive b).rxdsize ≤ (s.receive b).datacnt
  · rw [if_pos hle]
    exact h.ends hsame hfault rfl (.inr ⟨h₃, hlen.trans (by omega : s.datacnt + 1 = s.data.size), hstores⟩)
  · rw [if_neg hle]
    refine h.goes hsame hfault rfl rfl rfl ?_
    have hph : (s.receive b).phase = .receiving := hr.1
    unfold Progress
    rw [hph]
    exact ⟨hstores, hlen.trans hcnt.symm, h₃, (by omega : (s.receive b).datacnt < s.data.size)⟩

/-- What the handler does keeps the transaction in progress or ends it. -/
theorem event (h : AtWork s) {e : Status} (hr : Raises s e) : Sound (interruptHandler s e) := by
  cases e with
  | modeSelect => exact h.modeSelect hr
  | transmitterModeSelected => exact h.transmitterModeSelected hr
  | byteTransmitted => exact h.byteTransmitted hr
  | receiverModeSelected => exact h.receiverModeSelected hr
  | byteReceived btf b => exact h.byteReceived hr
  | extra => exact h.sound
  | other => exact h.ends ⟨rfl, rfl, rfl, rfl⟩ h.sound.fault rfl (.inl rfl)

end AtWork

/-- Interrupts are enabled while a transaction is at work only. -/
theorem Sound.active (h : Sound s) (hon : s.itEvt = true ∨ s.itErr = true) (hc : s.call ≠ .armed) :
    (s.call = .enabled ∨ s.call = .waiting) ∧ Active s := by
  have hnot : ¬(s.itEvt = false ∧ s.itErr = false) := by rintro ⟨h₁, h₂⟩; simp [h₁, h₂] at hon
  have hcall : s.call = .enabled ∨ s.call = .waiting := by
    cases hcall : s.call with
    | none => exact absurd ⟨(h.quiet (.inl hcall)).itEvt, (h.quiet (.inl hcall)).itErr⟩ hnot
    | configured => exact absurd ⟨(h.quiet (.inr hcall)).itEvt, (h.quiet (.inr hcall)).itErr⟩ hnot
    | armed => exact absurd hcall hc
    | enabled => exact .inl rfl
    | waiting => exact .inr rfl
  rcases h.busy hcall with ha | hf
  · exact ⟨hcall, ha⟩
  · exact absurd ⟨hf.itEvt, hf.itErr⟩ hnot

theorem Sound.finalized (h : Sound s) (hcall : s.call = .enabled ∨ s.call = .waiting) (ha : Active s) (flags : Nat) :
    Sound ({ s with hwError := flags }.evFinalize true) :=
  h.of_busy hcall ⟨rfl, rfl, rfl, rfl⟩ h.fault (fun _ => rfl)
    (.inr (finalize (s := { s with hwError := flags }) ha.wait (.inl rfl)))

theorem Sound.step {e : Event} (h : Sound s) (hs : Meeting Step Calm e s s') : Sound s' := by
  obtain ⟨hs, hc⟩ := hs
  cases e with
  | transaction data =>
    obtain ⟨⟨hcall, hsized⟩, rfl⟩ := of_guard hs
    have hq := h.quiet (.inl hcall)
    refine ⟨h.fault, fun _ => ⟨hsized, Nat.mod_eq_of_lt hc.1, Nat.mod_eq_of_lt hc.2, hc.1, hc.2⟩, fun _ => rfl,
      fun _ => { hq with }, fun _ => rfl, by simp, by simp⟩
  | enableErr =>
    obtain ⟨hcall, rfl⟩ := of_guard hs
    have hf := h.fits (by rw [hcall]; decide)
    have hq := h.quiet (.inr hcall)
    exact ⟨h.fault, fun _ => { hf with }, fun _ => h.read (.inl hcall), by simp, by simp,
      fun _ => ⟨hq.itEvt, hq.itBuf, hq.wait, h.clear hcall, rfl⟩, by simp⟩
  | enableEvt =>
    obtain ⟨hcall, rfl⟩ := of_guard hs
    have hf := h.fits (by rw [hcall]; decide)
    have ha := h.armed hcall
    exact ⟨h.fault, fun _ => { hf with }, fun _ => h.read (.inr (.inl hcall)), by simp, by simp, by simp,
      fun _ => .inl ⟨ha.wait, ha.hwError, .inl ⟨rfl, hc, ha.datacnt, ha.itBuf⟩⟩⟩
  | start =>
    obtain ⟨hcall, rfl⟩ := of_guard hs
    have hf := h.fits (by rw [hcall]; decide)
    refine ⟨h.fault, fun _ => { hf with }, by simp, by simp, by simp, by simp, fun _ => ?_⟩
    rcases h.busy (.inl hcall) with ha | hfin
    · rcases ha.progress with ⟨-, -, hcnt, -⟩ | ⟨hw, -⟩
      · exact .inl ⟨ha.wait, ha.hwError, .inr ⟨rfl, rfl, rfl, rfl, rfl, hcnt, h.read (.inr (.inr hcall))⟩⟩
      · rw [hcall] at hw
        cases hw
    · rcases hfin.outcome with hbit | ⟨hw, -⟩
      · exact .inr { hfin with outcome := Or.inl hbit }
      · rw [hcall] at hw
        cases hw
  | event e =>
    obtain ⟨⟨hon, hr⟩, rfl⟩ := of_guard hs
    have hne : s.call ≠ .armed := fun hc => by rw [(h.armed hc).itEvt] at hon; cases hon
    obtain ⟨hcall, ha⟩ := h.active (.inl hon) hne
    rcases ha.progress with ⟨hen, hph, hcnt, hbuf⟩ | ⟨hw, hst, hp⟩
    · -- there is no start condition yet
      cases e with
      | extra => exact h
      | other => exact h.finalized hcall ha s.hwError
      | modeSelect | transmitterModeSelected | byteTransmitted | receiverModeSelected | byteReceived btf b =>
        simp [Raises, hph] at hr
    · exact AtWork.event ⟨h, hw, ha, hst, hp⟩ hr
  | error flags =>
    obtain ⟨hon, rfl⟩ := of_guard hs
    obtain ⟨hcall, ha⟩ := h.active (.inr hon) hc
    exact h.finalized hcall ha flags
  | stopped =>
    obtain ⟨hstop, rfl⟩ := of_guard hs
    refine ⟨h.fault, fun hne => ?_, h.read, fun hn => ?_, h.clear, fun ha => { h.armed ha with }, fun hb => ?_⟩
    · exact ⟨(h.fits hne).sized, (h.fits hne).txdsize, (h.fits hne).rxdsize, (h.fits hne).out, (h.fits hne).size⟩
    · exact ⟨(h.quiet hn).itEvt, (h.quiet hn).itErr, (h.quiet hn).itBuf, (h.quiet hn).wait⟩
    · rcases h.busy hb with ha | hfin
      · rcases ha.progress with ⟨hen, -, hcnt, hbuf⟩ | ⟨-, hst, -⟩
        · exact .inl ⟨ha.wait, ha.hwError, .inl ⟨hen, rfl, hcnt, hbuf⟩⟩
        · rw [hstop] at hst
          cases hst
      · refine .inr { hfin with outcome := hfin.outcome.imp_right fun ⟨hw, hcomp⟩ => ?_ }
        exact ⟨hw, hcomp.handed, hcomp.delivered, hcomp.stores⟩
  | wake =>
    obtain ⟨⟨hcall, hwait⟩, rfl⟩ := of_guard hs
    rcases h.busy (.inr hcall) with ha | hfin
    · rw [ha.wait] at hwait
      cases hwait
    · have hzero : s.wait - 1 = 0 := by rw [hfin.wait]
      exact ⟨h.fault, by simp, by simp, fun _ => { hfin with wait := hzero }, by simp, by simp, by simp⟩
  | timeout => exact hc.elim

/-- **Transactions do not leak**: as long as no transaction times out, has a size of more than 16 bits or begins
before the stop condition of the one before is made, and no error interrupt comes between the enabling of the error
and of the event interrupt, `transaction` returns success only if all bytes of the
transfer have passed since its start condition, in order and once; between transactions no interrupt is enabled and
there is no token; and no index was outside a buffer. -/
theorem transactions_do_not_leak (hr : Run (Meeting Step Calm) {} s) :
    (∀ s', Step .wake s s' → s'.result = some 0 → Complete s) ∧ (s.call = .none → Quiet s) ∧ s.fault = false := by
  have h : Sound s := hr.keeps (fun _ _ _ h hs => h.step hs)
    ⟨rfl, by simp, by simp, fun _ => ⟨rfl, rfl, rfl, rfl⟩, by simp, by simp, by simp⟩
  refine ⟨fun s' hs hok => ?_, fun hn => h.quiet (.inl hn), h.fault⟩
  obtain ⟨⟨hcall, hwait⟩, rfl⟩ := of_guard hs
  rcases h.busy (.inr hcall) with ha | hfin
  · rw [ha.wait] at hwait
    cases hwait
  · rcases hfin.outcome with hbit | ⟨-, hc⟩
    · exact absurd (Option.some.inj hok) (getHwerror_ne_zero hbit)
    · exact hc

/-- A byte is sent and two are received. -/
def register : Reached (Meeting Step Calm) {} fun s =>
    s.call = .waiting ∧ s.wait = 1 ∧ s.handed = [7] ∧ s.stores = [(0, 1), (1, 2)] :=
  reached (meeting_of_guarded fun _ _ _ => id)
    [.transaction (.trx [7] 2), .enableErr, .enableEvt, .start, .event .modeSelect, .event .transmitterModeSelected,
      .event .extra, .event .byteTransmitted, .event .byteTransmitted, .event .modeSelect, .event .receiverModeSelected,
      .event (.byteReceived false 1), .event (.byteReceived true 2)]
    (by decide +kernel)

theorem register_does_not_leak :
    (∀ s', Step .wake register.state s' → s'.result = some 0 → Complete register.state) ∧
      (register.state.call = .none → Quiet register.state) ∧ register.state.fault = false :=
  transactions_do_not_leak register.run

/-- A transaction times out; the arbitration error that comes later gives a token, and the next transaction returns
success although no byte of it was sent. -/
theorem success_without_transfer : ∃ s, Run Step {} s ∧ s.data = .tx [7] ∧ s.result = some 0 ∧ s.handed = [] :=
  exists_run (fun _ _ _ => id)
    [.transaction (.tx [1]), .enableErr, .enableEvt, .start, .event .modeSelect, .timeout, .error 2,
      .transaction (.tx [7]), .enableErr, .enableEvt, .start, .wake]
    (by decide +kernel)

end Isix.Periph.I2cMaster
