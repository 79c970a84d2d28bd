import Isix.Lib.Runs

/-!
# Isix.Periph.SpiMaster

The SPI driver (`spi_master.cpp`), with interrupts for each unit or with DMA.
`transaction` takes the mutex, selects the chip, enables the sources of the
transfer and waits for the token that `finalize_transfer` gives.  Sizes count
the units of a transfer; of the data only how many units have passed is kept
(`got`, `sent`).

`m_ret` and the buffer pointers belong to the last transaction: an interrupt
that writes through them when no transaction is in progress is `late`.
-/

namespace Isix.Periph.SpiMaster

open Runs

/-- `blk::transfer`, with buffers that are not null -/
inductive Transfer
  | rx (size : Nat)
  | tx (size : Nat)
  | trx (size : Nat)
deriving DecidableEq

namespace Transfer

def size : Transfer → Nat
  | rx n | tx n | trx n => n

def hasRx : Transfer → Bool
  | rx _ | trx _ => true
  | tx _ => false

def hasTx : Transfer → Bool
  | tx _ | trx _ => true
  | rx _ => false

end Transfer

/-- How far `transaction` is. -/
inductive Call
  | none
  | configured
  /-- `periphint_config` has seen whether there is something to receive -/
  | rx (on : Bool)
  /-- reception is enabled -/
  | rxEnabled
  /-- it has seen whether there is something to transmit -/
  | tx (on : Bool)
  /-- the sources of the transfer are enabled -/
  | enabled
  /-- it has seen whether to enable errors -/
  | checked (err : Bool)
  | waiting
  | finishing (ret : Int)
deriving DecidableEq

structure State where
  dma : Bool
  call : Call := .none
  data : Transfer := .rx 0
  cs : Bool := false
  tret : Int := 0
  rxptr : Bool := false
  txptr : Bool := false
  rxsiz : Nat := 0
  txsiz : Nat := 0
  rxi : Nat := 0
  txi : Nat := 0
  itRxne : Bool := false
  itTxe : Bool := false
  itErr : Bool := false
  dmaRx : Bool := false
  dmaTx : Bool := false
  wait : Nat := 0
  result : Option Int := none
  got : Nat := 0
  sent : Nat := 0
  late : Bool := false

/-- `error::overrun` and `error::bus_timeout` -/
def overrun : Int := -514
def busTimeout : Int := -516

namespace State

/-- `finalize_transfer` -/
def finalizeTransfer (s : State) (err : Int) : State :=
  { s with
    itRxne := s.dma && s.itRxne
    itTxe := s.dma && s.itTxe
    itErr := s.dma && s.itErr
    tret := err
    late := s.late || s.call = .none
    rxptr := false
    txptr := false
    rxsiz := 0
    txsiz := 0
    wait := min 1 (s.wait + 1) }

/-- A unit goes to the receive buffer. -/
def receive (s : State) : State :=
  { s with rxi := (s.rxi + 1) % 2 ^ 16, got := s.got + 1, late := s.late || s.call = .none }

def transmit (s : State) : State := { s with txi := (s.txi + 1) % 2 ^ 16, sent := s.sent + 1 }

/-- The receive part of `interrupt_handler`, and `srxfin`. -/
def handleRx (s : State) (rxne : Bool) : State × Bool :=
  let t := if rxne && s.rxptr && s.rxi < s.rxsiz then s.receive else s
  (t, !s.rxptr || rxne && t.rxsiz ≤ t.rxi)

/-- The transmit part, and `stxfin`. -/
def handleTx (s : State) (txe : Bool) : State × Bool :=
  let t := if txe && s.txptr && s.txi < s.txsiz then s.transmit else s
  (t, !s.txptr || txe && t.txsiz ≤ t.txi)

/-- The interrupt ends the transfer. -/
def ends (s : State) (rxne txe ovr : Bool) : Bool :=
  (s.handleRx rxne).2 && ((s.handleRx rxne).1.handleTx txe).2 || ovr

/-- `interrupt_handler`, with the flags it finds -/
def interruptHandler (s : State) (rxne txe ovr : Bool) : State :=
  let r := s.handleRx rxne
  let t := r.1.handleTx txe
  if r.2 && t.2 then t.1.finalizeTransfer 0
  else if ovr then t.1.finalizeTransfer overrun
  else t.1

/-- `dma_interrupt_handler`: a channel is done -/
def dmaInterruptHandler (s : State) (err tx : Bool) : State :=
  let s := if tx then { s with dmaTx := false, sent := if err then s.sent else s.data.size }
    else { s with dmaRx := false, got := if err then s.got else s.data.size }
  s.finalizeTransfer (if err then overrun else 0)

end State

inductive Event
  /-- `start_transfer`, and the chip is selected -/
  | transaction (data : Transfer)
  /-- `periphint_config` looks at the pointer of a direction -/
  | check (tx : Bool)
  /-- and enables its interrupt or starts its channel -/
  | enable
  /-- the channel cannot be started -/
  | fail (err : Int)
  | checkErr
  | enableErr
  | interrupt (rxne txe ovr : Bool)
  | dmaInterrupt (err tx : Bool)
  /-- `m_wait.wait` returns -/
  | wake
  | timeout
  /-- the bus is not busy any more, or still after 50 ms -/
  | ready
  | busy

def step : Event → State → Option State
  | .transaction data, s =>
    if s.call = .none then
      some { s with
        call := .configured
        data := data
        cs := true
        tret := 0
        rxptr := data.hasRx
        txptr := data.hasTx
        rxsiz := if data.hasRx then data.size % 2 ^ 16 else 0
        txsiz := if data.hasTx then data.size % 2 ^ 16 else 0
        rxi := 0
        txi := 0
        got := 0
        sent := 0 }
    else none
  | .check tx, s =>
    if tx then if s.call = .rxEnabled then some { s with call := .tx s.txptr } else none
    else if s.call = .configured then some { s with call := .rx s.rxptr } else none
  | .enable, s =>
    match s.call with
    | .rx on =>
      if s.dma then some { s with call := .rxEnabled, dmaRx := s.dmaRx || on }
      else some { s with call := .rxEnabled, itRxne := s.itRxne || on }
    | .tx on =>
      if s.dma then some { s with call := .waiting, dmaTx := s.dmaTx || on }
      else some { s with call := .enabled, itTxe := s.itTxe || on }
    | _ => none
  | .fail err, s =>
    if (s.call = .rx true ∨ s.call = .tx true) ∧ s.dma ∧ err ≠ 0 then
      some { s with call := .none, cs := false, result := some err }
    else none
  | .checkErr, s => if s.call = .enabled then some { s with call := .checked (s.rxptr || s.txptr) } else none
  | .enableErr, s =>
    match s.call with
    | .checked err => some { s with call := .waiting, itErr := s.itErr || err }
    | _ => none
  | .interrupt rxne txe ovr, s =>
    if s.itRxne && rxne || s.itTxe && txe || s.itErr && ovr then some (s.interruptHandler rxne txe ovr) else none
  | .dmaInterrupt err tx, s =>
    if (if tx then s.dmaTx else s.dmaRx) then some (s.dmaInterruptHandler err tx) else none
  | .wake, s =>
    if s.call = .waiting ∧ 0 < s.wait then some { s with call := .finishing s.tret, wait := s.wait - 1 } else none
  | .timeout, s => if s.call = .waiting ∧ s.wait = 0 then some { s with call := .finishing (-3) } else none
  | .ready, s =>
    match s.call with
    | .finishing ret => some { s with call := .none, cs := false, result := some ret }
    | _ => none
  | .busy, s =>
    match s.call with
    | .finishing _ => some { s with call := .none, result := some busTimeout }
    | _ => none

def Step (e : Event) (s s' : State) : Prop := step e s = some s'

/-! ## transactions -/

/-- Every direction of the transfer is completed. -/
structure Complete (s : State) : Prop where
  got : s.data.hasRx = true → s.got = s.data.size
  sent : s.data.hasTx = true → s.sent = s.data.size

/-- No interrupt can come. -/
structure Off (s : State) : Prop where
  itRxne : s.itRxne = false
  itTxe : s.itTxe = false
  itErr : s.itErr = false
  dmaRx : s.dmaRx = false
  dmaTx : s.dmaTx = false

/-- The transfer is set up, and this far. -/
structure Transferring (s : State) : Prop where
  rxptr : s.rxptr = s.data.hasRx
  txptr : s.txptr = s.data.hasTx
  rxsiz : s.data.hasRx = true → s.rxsiz = s.data.size
  txsiz : s.data.hasTx = true → s.txsiz = s.data.size
  got : s.data.hasRx = true → s.rxi = s.got ∧ s.got ≤ s.data.size
  sent : s.data.hasTx = true → s.txi = s.sent ∧ s.sent ≤ s.data.size
  size : s.data.size < 2 ^ 16
  single : s.dma = true → (s.data.hasRx && s.data.hasTx) = false
  wait : s.wait = 0

/-- The transfer is over. -/
structure Finished (s : State) : Prop where
  off : Off s
  wait : s.wait = 1
  rxptr : s.rxptr = false
  txptr : s.txptr = false
  outcome : s.tret ≠ 0 ∨ Complete s

/-- What holds at each point of `transaction`. -/
def At (s : State) : Prop :=
  match s.call with
  | .none => Off s ∧ s.wait = 0 ∧ s.cs = false
  | .configured => Off s ∧ Transferring s
  | .rx on => Off s ∧ Transferring s ∧ on = s.data.hasRx
  | .rxEnabled | .tx false | .enabled | .waiting => Transferring s ∨ Finished s
  | .tx true => Transferring s ∧ s.data.hasTx = true
  | .checked err => if err then Transferring s else Finished s
  | .finishing ret => Off s ∧ s.wait = 0 ∧ (ret = 0 → Complete s)

/-- `periphint_config` is about to enable a source for a transfer it has seen. -/
def Deciding (s : State) : Prop := s.call = .tx true ∨ s.call = .checked true

structure Sound (s : State) : Prop where
  late : s.late = false
  dmaOnly : s.dma = true → s.itRxne = false ∧ s.itTxe = false ∧ s.itErr = false
  dmaCall : s.dma = true → s.call ≠ .enabled ∧ ∀ err, s.call ≠ .checked err
  irqOnly : s.dma = false → s.dmaRx = false ∧ s.dmaTx = false
  /-- the channels that run are those of the transfer, the transmit channel being the last that is started -/
  channels : (s.dmaRx = true → s.data.hasRx = true) ∧ (s.dmaTx = true → s.data.hasTx = true ∧ s.call = .waiting)
  at_ : At s

/-- No transaction times out, has more than 16 bits for its size, or uses DMA in both directions, and no interrupt
ends a transfer between the check of `periphint_config` for something to transmit or for errors and their enabling. -/
def Calm : Event → State → Prop
  | .transaction data, s => data.size < 2 ^ 16 ∧ (s.dma = true → (data.hasRx && data.hasTx) = false)
  | .interrupt rxne txe ovr, s => Deciding s → s.ends rxne txe ovr = false
  | .timeout, _ | .busy, _ => False
  | _, _ => True

instance (s : State) : Decidable (Deciding s) := inferInstanceAs (Decidable (_ ∨ _))

instance : ∀ e s, Decidable (Calm e s)
  | .transaction _, _ => inferInstanceAs (Decidable (_ ∧ (_ → _)))
  | .interrupt _ _ _, _ => inferInstanceAs (Decidable (_ → _))
  | .timeout, _ | .busy, _ => inferInstanceAs (Decidable False)
  | .check _, _ | .enable, _ | .fail _, _ | .checkErr, _ | .enableErr, _ | .dmaInterrupt _ _, _ | .wake, _
  | .ready, _ =>
    inferInstanceAs (Decidable True)

variable {s s' : State}

/-- The index of the next unit. -/
theorem index_succ {i siz k n : Nat} (hlt : i < siz) (hsiz : siz = n) (hn : n < 2 ^ 16) (hk : i = k ∧ k ≤ n) :
    (i + 1) % 2 ^ 16 = k + 1 ∧ k + 1 ≤ n := by
  have hmod : (i + 1) % 2 ^ 16 = i + 1 := Nat.mod_eq_of_lt (by omega)
  omega

/-- All units are through when the index is at the end. -/
theorem all_units {ptr flag : Bool} {i siz k n : Nat} (hf : (!ptr || flag && decide (siz ≤ i)) = true)
    (hptr : ptr = true) (hsiz : siz = n) (hk : i = k ∧ k ≤ n) : k = n := by
  simp only [hptr, Bool.not_true, Bool.false_or, Bool.and_eq_true, decide_eq_true_eq] at hf
  omega

namespace Transferring

theorem receive (h : Transferring s) (hp : s.rxptr = true) (hlt : s.rxi < s.rxsiz) : Transferring s.receive := by
  have hrx : s.data.hasRx = true := h.rxptr.symm.trans hp
  exact { h with got := fun _ => index_succ hlt (h.rxsiz hrx) h.size (h.got hrx) }

theorem transmit (h : Transferring s) (hp : s.txptr = true) (hlt : s.txi < s.txsiz) : Transferring s.transmit := by
  have htx : s.data.hasTx = true := h.txptr.symm.trans hp
  exact { h with sent := fun _ => index_succ hlt (h.txsiz htx) h.size (h.sent htx) }

end Transferring

/-- `finalize_transfer`, when no channel runs any more. -/
theorem finalize (hwait : s.wait = 0) {err : Int} (hc : err ≠ 0 ∨ Complete s) (hrx : s.dmaRx = false)
    (htx : s.dmaTx = false) (hirq : s.dma = true → s.itRxne = false ∧ s.itTxe = false ∧ s.itErr = false) :
    Finished (s.finalizeTransfer err) := by
  have hoff : ∀ b, (s.dma = true → b = false) → (s.dma && b) = false := by
    intro b hb
    cases hd : s.dma with
    | false => rfl
    | true => rw [hb hd]; rfl
  refine ⟨⟨hoff _ fun hd => (hirq hd).1, hoff _ fun hd => (hirq hd).2.1, hoff _ fun hd => (hirq hd).2.2, hrx, htx⟩, ?_,
    rfl, rfl, hc.imp_right fun hc => ⟨hc.got, hc.sent⟩⟩
  simp [State.finalizeTransfer, hwait]

/-- What an interrupt leaves alone. -/
structure Same (s s' : State) : Prop where
  call : s'.call = s.call
  dma : s'.dma = s.dma
  data : s'.data = s.data
  late : s.call ≠ .none → s.late = false → s'.late = false
  dmaRx : s'.dmaRx = s.dmaRx
  dmaTx : s'.dmaTx = s.dmaTx

theorem Same.trans {s'' : State} (h : Same s s') (h' : Same s' s'') : Same s s'' :=
  ⟨h'.call.trans h.call, h'.dma.trans h.dma, h'.data.trans h.data,
    fun hc hl => h'.late (by rwa [h.call]) (h.late hc hl), h'.dmaRx.trans h.dmaRx, h'.dmaTx.trans h.dmaTx⟩

theorem Same.finalize (s : State) (err : Int) : Same s (s.finalizeTransfer err) :=
  ⟨rfl, rfl, rfl, fun hc hl => by simp [State.finalizeTransfer, hc, hl], rfl, rfl⟩

theorem Transferring.handleRx (h : Transferring s) (rxne : Bool) :
    Transferring (s.handleRx rxne).1 ∧ Same s (s.handleRx rxne).1 ∧
      ((s.handleRx rxne).2 = true → s.data.hasRx = true → (s.handleRx rxne).1.got = s.data.size) := by
  unfold State.handleRx
  by_cases hc : (rxne && s.rxptr && s.rxi < s.rxsiz) = true
  · have hc' := hc
    simp only [Bool.and_eq_true, decide_eq_true_eq] at hc'
    have ht := h.receive hc'.1.2 hc'.2
    rw [if_pos hc]
    exact ⟨ht, ⟨rfl, rfl, rfl, fun hn hl => by simp [State.receive, hn, hl], rfl, rfl⟩,
      fun hf hrx => all_units hf (h.rxptr.trans hrx) (ht.rxsiz hrx) (ht.got hrx)⟩
  · rw [if_neg hc]
    exact ⟨h, ⟨rfl, rfl, rfl, fun _ hl => hl, rfl, rfl⟩,
      fun hf hrx => all_units hf (h.rxptr.trans hrx) (h.rxsiz hrx) (h.got hrx)⟩

theorem Transferring.handleTx (h : Transferring s) (txe : Bool) :
    Transferring (s.handleTx txe).1 ∧ Same s (s.handleTx txe).1 ∧ (s.handleTx txe).1.got = s.got ∧
      ((s.handleTx txe).2 = true → s.data.hasTx = true → (s.handleTx txe).1.sent = s.data.size) := by
  unfold State.handleTx
  by_cases hc : (txe && s.txptr && s.txi < s.txsiz) = true
  · have hc' := hc
    simp only [Bool.and_eq_true, decide_eq_true_eq] at hc'
    have ht := h.transmit hc'.1.2 hc'.2
    rw [if_pos hc]
    exact ⟨ht, ⟨rfl, rfl, rfl, fun _ hl => hl, rfl, rfl⟩, rfl,
      fun hf htx => all_units hf (h.txptr.trans htx) (ht.txsiz htx) (ht.sent htx)⟩
  · rw [if_neg hc]
    exact ⟨h, ⟨rfl, rfl, rfl, fun _ hl => hl, rfl, rfl⟩, rfl,
      fun hf htx => all_units hf (h.txptr.trans htx) (h.txsiz htx) (h.sent htx)⟩

theorem Transferring.interruptHandler (h : Transferring s) (hd : s.dma = false) (hrx : s.dmaRx = false)
    (htx : s.dmaTx = false) (rxne txe ovr : Bool) :
    Same s (s.interruptHandler rxne txe ovr) ∧
      if s.ends rxne txe ovr then Finished (s.interruptHandler rxne txe ovr)
      else Transferring (s.interruptHandler rxne txe ovr) := by
  obtain ⟨h₁, hs₁, hgot⟩ := h.handleRx rxne
  obtain ⟨h₂, hs₂, hkeep, hsent⟩ := h₁.handleTx txe
  have hs := hs₁.trans hs₂
  have hends : ∀ {err : Int}, err ≠ 0 ∨ Complete ((s.handleRx rxne).1.handleTx txe).1 →
      Finished (((s.handleRx rxne).1.handleTx txe).1.finalizeTransfer err) := fun hc =>
    finalize h₂.wait hc (hs.dmaRx.trans hrx) (hs.dmaTx.trans htx) fun hdma => by rw [hs.dma, hd] at hdma; cases hdma
  unfold State.interruptHandler State.ends
  dsimp only
  split
  next hfin =>
    rw [if_pos (by rw [hfin]; rfl)]
    simp only [Bool.and_eq_true] at hfin
    refine ⟨hs.trans (.finalize _ _), hends (.inr ⟨fun hr => ?_, fun ht => ?_⟩)⟩
    · rw [hs.data] at hr ⊢
      rw [hkeep, hgot hfin.1 hr]
    · rw [hs.data] at ht ⊢
      rw [hsent hfin.2 (by rwa [hs₁.data]), hs₁.data]
  next hfin =>
    rw [Bool.eq_false_iff.mpr hfin, Bool.false_or]
    split
    · exact ⟨hs.trans (.finalize _ _), hends (.inl (by decide))⟩
    · exact ⟨hs, h₂⟩

/-- The points of `transaction` at which an interrupt can come. -/
def Call.busy : Call → Bool
  | .rxEnabled | .tx _ | .enabled | .checked _ | .waiting => true
  | .none | .configured | .rx _ | .finishing _ => false

/-- An interrupt can only come while a transfer is going on. -/
theorem Sound.transferring (h : Sound s) (hon : ¬Off s) : s.call.busy = true ∧ Transferring s := by
  have hat := h.at_
  have hgo : Transferring s ∨ Finished s → Transferring s := fun h => h.resolve_right fun hf => hon hf.off
  unfold At at hat
  cases hc : s.call with
  | none | configured | rx | finishing =>
    rw [hc] at hat
    exact absurd hat.1 hon
  | rxEnabled | enabled | waiting =>
    rw [hc] at hat
    exact ⟨rfl, hgo hat⟩
  | tx on =>
    rw [hc] at hat
    cases on with
    | false => exact ⟨rfl, hgo hat⟩
    | true => exact ⟨rfl, hat.1⟩
  | checked err =>
    rw [hc] at hat
    cases err with
    | false => exact absurd (Finished.off hat) hon
    | true => exact ⟨rfl, hat⟩

/-- What an interrupt has to show. -/
theorem Sound.at_busy (h : Sound s) (hon : ¬Off s) (hcall : s'.call = s.call) (hdata : s'.data = s.data)
    (hfin : Transferring s' ∨ Finished s') (hdec : Deciding s → Transferring s') : At s' := by
  have hat := h.at_
  have hbusy := (h.transferring hon).1
  unfold At at hat ⊢
  rw [hcall]
  cases hc : s.call with
  | none | configured | rx | finishing =>
    rw [hc] at hbusy
    cases hbusy
  | rxEnabled | enabled | waiting => exact hfin
  | tx on =>
    rw [hc] at hat
    cases on with
    | false => exact hfin
    | true => exact ⟨hdec (.inl hc), by rw [hdata]; exact hat.2⟩
  | checked err =>
    rw [hc] at hat
    cases err with
    | false => exact absurd (Finished.off hat) hon
    | true => exact hdec (.inr hc)

theorem Sound.busy_ne (h : Sound s) (hon : ¬Off s) : s.call ≠ .none := by
  intro hc
  have hbusy := (h.transferring hon).1
  rw [hc] at hbusy
  cases hbusy

theorem Sound.interrupt (h : Sound s) {rxne txe ovr : Bool} (hc : Calm (.interrupt rxne txe ovr) s)
    (hs : Step (.interrupt rxne txe ovr) s s') : Sound s' := by
  obtain ⟨hon, rfl⟩ := of_guard hs
  have hdma : s.dma = false := by
    cases hd : s.dma with
    | false => rfl
    | true => simp [h.dmaOnly hd] at hon
  have hoff : ¬Off s := fun hoff => by simp [hoff.itRxne, hoff.itTxe, hoff.itErr] at hon
  obtain ⟨hrx, htx⟩ := h.irqOnly hdma
  obtain ⟨hsame, hends⟩ := (h.transferring hoff).2.interruptHandler hdma hrx htx rxne txe ovr
  have hirq : (s.interruptHandler rxne txe ovr).dma ≠ true := by rw [hsame.dma, hdma]; decide
  refine ⟨hsame.late (h.busy_ne hoff) h.late, fun hd => absurd hd hirq, fun hd => absurd hd hirq,
    fun _ => ⟨hsame.dmaRx.trans hrx, hsame.dmaTx.trans htx⟩, ?_, h.at_busy hoff hsame.call hsame.data ?_ fun hdec => ?_⟩
  · rw [hsame.dmaRx, hsame.dmaTx, hrx, htx]
    simp
  · split at hends
    · exact .inr hends
    · exact .inl hends
  · rw [hc hdec] at hends
    exact hends

/-- No channel runs while a source is decided on. -/
theorem Sound.not_deciding (h : Sound s) (hdma : s.dma = true) (hon : s.dmaRx = true ∨ s.dmaTx = true) :
    ¬Deciding s := by
  rintro (hc | hc)
  · have hat := h.at_
    unfold At at hat
    rw [hc] at hat
    have hsingle := hat.1.single hdma
    rcases hon with hrx | htx
    · rw [h.channels.1 hrx, hat.2] at hsingle
      cases hsingle
    · exact absurd (hc.symm.trans (h.channels.2 htx).2) (by decide)
  · exact (h.dmaCall hdma).2 true hc

theorem Sound.dmaInterrupt (h : Sound s) {err tx : Bool} (hs : Step (.dmaInterrupt err tx) s s') : Sound s' := by
  obtain ⟨hon, rfl⟩ := of_guard hs
  have hdma : s.dma = true := by
    cases hd : s.dma with
    | true => rfl
    | false => cases tx <;> simp [h.irqOnly hd] at hon
  have hoff : ¬Off s := fun hoff => by cases tx <;> simp [hoff.dmaRx, hoff.dmaTx] at hon
  have ht := (h.transferring hoff).2
  have hdec : ¬Deciding s := h.not_deciding hdma (by cases tx <;> simp_all)
  have hirq : s.itRxne = false ∧ s.itTxe = false ∧ s.itErr = false := h.dmaOnly hdma
  -- the transfer has one direction, so the other channel does not run
  have hsingle := ht.single hdma
  have hchan := h.channels
  have hend : ∀ s₁ : State, s₁.call = s.call → s₁.dma = s.dma → s₁.data = s.data → s₁.late = s.late → s₁.wait = s.wait →
      s₁.itRxne = s.itRxne → s₁.itTxe = s.itTxe → s₁.itErr = s.itErr → s₁.dmaRx = false → s₁.dmaTx = false →
      (err = false → Complete s₁) →
      Sound (s₁.finalizeTransfer (if err then overrun else 0)) := by
    intro s₁ hcall₁ hdma₁ hdata hlate hwait h₁ h₂ h₃ hrx htx hcomp
    have hirq₁ : s₁.dma = true → s₁.itRxne = false ∧ s₁.itTxe = false ∧ s₁.itErr = false := fun _ => by rwa [h₁, h₂, h₃]
    have hout : (if err then overrun else 0) ≠ 0 ∨ Complete s₁ := by
      cases err with
      | true => exact .inl (by decide)
      | false => exact .inr (hcomp rfl)
    have hfin := finalize (hwait.trans ht.wait) hout hrx htx hirq₁
    have hsame := Same.finalize s₁ (if err then overrun else 0)
    refine ⟨hsame.late (by rw [hcall₁]; exact h.busy_ne hoff) (hlate.trans h.late),
      fun _ => ⟨hfin.off.itRxne, hfin.off.itTxe, hfin.off.itErr⟩, fun _ => ?_, fun _ => ⟨hrx, htx⟩, ?_,
      h.at_busy hoff hcall₁ hdata (.inr hfin) fun hd => absurd hd hdec⟩
    · rw [hsame.call, hcall₁]
      exact h.dmaCall hdma
    · rw [hsame.dmaRx, hsame.dmaTx, hrx, htx]
      simp
  cases tx with
  | true =>
    have htx := (hchan.2 hon).1
    rw [htx, Bool.and_true] at hsingle
    have hrx : s.dmaRx = false := Bool.eq_false_iff.mpr fun hd => absurd (hsingle.symm.trans (hchan.1 hd)) (by decide)
    refine hend _ rfl rfl rfl rfl rfl rfl rfl rfl hrx rfl fun he => ⟨fun hr => ?_, fun _ => by simp [he]⟩
    exact absurd (hsingle.symm.trans hr) (by decide)
  | false =>
    have hrx := hchan.1 hon
    rw [hrx, Bool.true_and] at hsingle
    have htx : s.dmaTx = false := Bool.eq_false_iff.mpr fun hd => absurd (hsingle.symm.trans (hchan.2 hd).1) (by decide)
    refine hend _ rfl rfl rfl rfl rfl rfl rfl rfl rfl htx fun he => ⟨fun _ => by simp [he], fun ht => ?_⟩
    exact absurd (hsingle.symm.trans ht) (by decide)

theorem Transfer.has (data : Transfer) : (data.hasRx || data.hasTx) = true := by
  cases data <;> rfl

/-- The transfer does not depend on what is enabled. -/
theorem Transferring.enable (h : Transferring s) (call : Call) (a b c d e : Bool) :
    Transferring { s with call := call, itRxne := a, itTxe := b, itErr := c, dmaRx := d, dmaTx := e } :=
  { h with }

theorem Finished.goesOn (h : Finished s) (call : Call) : Finished { s with call := call } :=
  { h with off := { h.off with }, outcome := h.outcome.imp_right fun hc => ⟨hc.got, hc.sent⟩ }

theorem Sound.dmaTx_off (h : Sound s) (hc : s.call ≠ .waiting) : s.dmaTx = false :=
  Bool.eq_false_iff.mpr fun hd => hc (h.channels.2 hd).2

theorem Sound.enableRx (h : Sound s) {on : Bool} (hcall : s.call = .rx on) (hs : Step .enable s s') : Sound s' := by
  have hat := h.at_
  unfold At at hat
  rw [hcall] at hat
  obtain ⟨hoff, ht, rfl⟩ := hat
  simp only [Step, SpiMaster.step, hcall] at hs
  split at hs
  next hdma =>
    cases hs
    refine ⟨h.late, h.dmaOnly, by simp, fun hd => ?_, ?_, .inl (ht.enable ..)⟩
    · exact absurd (hd.symm.trans hdma) (by decide)
    · simp [hoff.dmaRx, hoff.dmaTx]
  next hirq =>
    cases hs
    exact ⟨h.late, fun hd => absurd hd hirq, fun hd => absurd hd hirq, h.irqOnly,
      ⟨h.channels.1, by simp [hoff.dmaTx]⟩, .inl (ht.enable ..)⟩

/-- Nothing is enabled for a transfer that is over. -/
theorem Sound.enableTx_at (h : Sound s) {on : Bool} (hcall : s.call = .tx on) (call : Call) {it dma : Bool}
    (hoff : on = false → it = s.itTxe ∧ dma = s.dmaTx) :
    Transferring { s with call := call, itTxe := it, dmaTx := dma } ∨
      Finished { s with call := call, itTxe := it, dmaTx := dma } := by
  have hat := h.at_
  unfold At at hat
  rw [hcall] at hat
  cases on with
  | true => exact .inl (hat.1.enable ..)
  | false =>
    obtain ⟨rfl, rfl⟩ := hoff rfl
    exact hat.imp (fun ht => ht.enable ..) fun hf => hf.goesOn call

theorem Sound.enableTx (h : Sound s) {on : Bool} (hcall : s.call = .tx on) (hs : Step .enable s s') : Sound s' := by
  have hdmaTx : s.dmaTx = false := h.dmaTx_off (by rw [hcall]; simp)
  have hhas : on = true → s.data.hasTx = true := by
    rintro rfl
    have hat := h.at_
    unfold At at hat
    rw [hcall] at hat
    exact hat.2
  simp only [Step, SpiMaster.step, hcall] at hs
  split at hs
  next hdma =>
    cases hs
    refine ⟨h.late, h.dmaOnly, by simp, fun hd => ?_, ⟨h.channels.1, fun hd => ⟨hhas ?_, rfl⟩⟩,
      h.enableTx_at hcall .waiting fun hoff => ⟨rfl, by rw [hoff, Bool.or_false]⟩⟩
    · exact absurd (hd.symm.trans hdma) (by decide)
    · rwa [hdmaTx, Bool.false_or] at hd
  next hirq =>
    cases hs
    exact ⟨h.late, fun hd => absurd hd hirq, fun hd => absurd hd hirq, h.irqOnly, ⟨h.channels.1, by simp [hdmaTx]⟩,
      h.enableTx_at hcall .enabled fun hoff => ⟨by rw [hoff, Bool.or_false], rfl⟩⟩

theorem at_tx {on : Bool} (hc : s.call = .tx on)
    (h : if on then Transferring s ∧ s.data.hasTx = true else Transferring s ∨ Finished s) : At s := by
  unfold At
  rw [hc]
  cases on <;> exact h

/-- The two checks for a direction. -/
theorem Sound.check (h : Sound s) {tx : Bool} (hs : Step (.check tx) s s') : Sound s' := by
  have hat := h.at_
  unfold At at hat
  simp only [Step, SpiMaster.step] at hs
  split at hs
  · obtain ⟨hcall, rfl⟩ := of_guard hs
    rw [hcall] at hat
    have hdmaTx : s.dmaTx = false := h.dmaTx_off (by rw [hcall]; decide)
    refine { h with dmaCall := by simp, channels := ⟨h.channels.1, by simp [hdmaTx]⟩, at_ := ?_ }
    refine at_tx rfl ?_
    rcases hat with ht | hf
    · split
      next htx => exact ⟨ht.enable .., ht.txptr.symm.trans htx⟩
      next => exact .inl (ht.enable ..)
    · rw [if_neg (by simp [hf.txptr])]
      exact .inr (hf.goesOn _)
  · obtain ⟨hcall, rfl⟩ := of_guard hs
    rw [hcall] at hat
    obtain ⟨hoff, ht⟩ := hat
    exact { h with
      dmaCall := by simp
      channels := ⟨h.channels.1, by simp [hoff.dmaTx]⟩
      at_ := ⟨{ hoff with }, ht.enable .., ht.rxptr⟩ }

/-- A channel that cannot be started is the first: the transfer has one direction. -/
theorem Sound.fail (h : Sound s) {err : Int} (hs : Step (.fail err) s s') : Sound s' := by
  obtain ⟨⟨hcall, hdma, -⟩, rfl⟩ := of_guard hs
  have hat := h.at_
  have hdmaTx : s.dmaTx = false := h.dmaTx_off (by rcases hcall with hc | hc <;> rw [hc] <;> decide)
  have hrest : Transferring s ∧ s.dmaRx = false := by
    unfold At at hat
    rcases hcall with hc | hc
    · rw [hc] at hat
      exact ⟨hat.2.1, hat.1.dmaRx⟩
    · rw [hc] at hat
      exact ⟨hat.1, Bool.eq_false_iff.mpr fun hd => h.not_deciding hdma (.inl hd) (.inl hc)⟩
  obtain ⟨ht, hdmaRx⟩ := hrest
  obtain ⟨h₁, h₂, h₃⟩ := h.dmaOnly hdma
  exact ⟨h.late, h.dmaOnly, by simp, fun _ => ⟨hdmaRx, hdmaTx⟩, by simp [hdmaRx, hdmaTx],
    ⟨h₁, h₂, h₃, hdmaRx, hdmaTx⟩, ht.wait, rfl⟩

theorem Sound.step {e : Event} (h : Sound s) (hs : Meeting Step Calm e s s') : Sound s' := by
  obtain ⟨hs, hc⟩ := hs
  have hat := h.at_
  unfold At at hat
  cases e with
  | transaction data =>
    obtain ⟨hcall, rfl⟩ := of_guard hs
    rw [hcall] at hat
    obtain ⟨hoff, hwait, -⟩ := hat
    have hmod : data.size % 2 ^ 16 = data.size := Nat.mod_eq_of_lt hc.1
    refine ⟨h.late, h.dmaOnly, by simp, h.irqOnly, by simp [hoff.dmaRx, hoff.dmaTx], ?_, ?_⟩
    · exact { hoff with }
    · refine ⟨rfl, rfl, fun hr => ?_, fun ht => ?_, fun _ => ⟨rfl, Nat.zero_le _⟩, fun _ => ⟨rfl, Nat.zero_le _⟩,
        hc.1, hc.2, hwait⟩
      · exact (if_pos hr).trans hmod
      · exact (if_pos ht).trans hmod
  | enable =>
    cases hcall : s.call with
    | rx on => exact h.enableRx hcall hs
    | tx on => exact h.enableTx hcall hs
    | none | configured | rxEnabled | enabled | checked | waiting | finishing =>
      simp [Step, SpiMaster.step, hcall] at hs
  | fail err => exact h.fail hs
  | check tx => exact h.check hs
  | checkErr =>
    obtain ⟨hcall, rfl⟩ := of_guard hs
    rw [hcall] at hat
    have hdmaTx : s.dmaTx = false := h.dmaTx_off (by rw [hcall]; decide)
    refine { h with
      dmaCall := fun hd => absurd hcall (h.dmaCall hd).1
      channels := ⟨h.channels.1, by simp [hdmaTx]⟩
      at_ := ?_ }
    unfold At
    dsimp only
    rcases hat with ht | hf
    · rw [if_pos (by rw [ht.rxptr, ht.txptr, Transfer.has])]
      exact ht.enable ..
    · rw [if_neg (by simp [hf.rxptr, hf.txptr])]
      exact hf.goesOn _
  | enableErr =>
    simp only [Step, SpiMaster.step] at hs
    split at hs
    next err hcall =>
      cases hs
      rw [hcall] at hat
      have hdmaTx : s.dmaTx = false := h.dmaTx_off (by rw [hcall]; simp)
      refine ⟨h.late, fun hd => absurd hcall ((h.dmaCall hd).2 err), by simp, h.irqOnly,
        ⟨h.channels.1, by simp [hdmaTx]⟩, ?_⟩
      cases err with
      | true => exact .inl (Transferring.enable hat ..)
      | false =>
        rw [Bool.or_false]
        exact .inr (Finished.goesOn hat _)
    next => cases hs
  | interrupt rxne txe ovr => exact h.interrupt hc hs
  | dmaInterrupt err tx => exact h.dmaInterrupt hs
  | wake =>
    obtain ⟨⟨hcall, hwait⟩, rfl⟩ := of_guard hs
    rw [hcall] at hat
    rcases hat with ht | hf
    · rw [ht.wait] at hwait
      cases hwait
    · refine ⟨h.late, h.dmaOnly, by simp, h.irqOnly, by simp [hf.off.dmaRx, hf.off.dmaTx], { hf.off with },
        ?_, fun h0 => ?_⟩
      · simp [hf.wait]
      · exact ⟨(hf.outcome.resolve_left (not_not.mpr h0)).got, (hf.outcome.resolve_left (not_not.mpr h0)).sent⟩
  | timeout => exact hc.elim
  | ready =>
    simp only [Step, SpiMaster.step] at hs
    split at hs
    next ret hcall =>
      cases hs
      rw [hcall] at hat
      obtain ⟨hoff, hwait, -⟩ := hat
      exact ⟨h.late, h.dmaOnly, by simp, h.irqOnly, by simp [hoff.dmaRx, hoff.dmaTx], { hoff with }, hwait, rfl⟩
    next => cases hs
  | busy => exact hc.elim

end Isix.Periph.SpiMaster
