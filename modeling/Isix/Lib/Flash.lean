import Isix.Lib.Ring

/-!
# Isix.Lib.Flash

Paged memory behind a driver.  The cells of a chip are read, programmed and, page
by page, erased; programming a flash chip can only clear bits, programming a
random-access chip overwrites.  A driver is a program over a `Medium`: it has a
state of its own, and each access works or, where the medium has a fault in
store, reports an error and does nothing.  The medium keeps the accesses that
were made, so that the cells after a cut are those after a part of them.

`Does f o c r o' ops` says what a program does on a medium without faults; the
rules follow the way programs are put together.  `Peeks` is the case of a program
that only reads.
-/

namespace Flash

open Ring (blit slice)

/-! ## chips -/

/-- The cells: page, offset. -/
abbrev Cells := Nat → Nat → UInt8

structure Chip where
  pageSize : Nat
  numPages : Nat
  /-- A random-access chip is programmed without an erase. -/
  overwrites : Bool

inductive Op where
  | read (pg off n : Nat)
  | program (pg off : Nat) (bs : List UInt8)
  | erase (pg : Nat)
  deriving DecidableEq

/-- A cell with the value `old` is programmed. -/
def Chip.put (chip : Chip) (old new : UInt8) : UInt8 := if chip.overwrites then new else old &&& new

/-- The bytes `bs` are programmed into a page. -/
def Chip.blend (chip : Chip) (off : Nat) (bs : List UInt8) (page : Nat → UInt8) : Nat → UInt8 := fun a =>
  if off ≤ a then (bs[a - off]?).elim (page a) (chip.put (page a)) else page a

def Chip.apply (chip : Chip) : Op → Cells → Cells
  | .read _ _ _, c => c
  | .program pg off bs, c => Function.update c pg (chip.blend off bs (c pg))
  | .erase pg, c => Function.update c pg fun _ => 0xFF

def Chip.applyAll (chip : Chip) (ops : List Op) (c : Cells) : Cells :=
  ops.foldl (fun c op => chip.apply op c) c

/-- The access is inside a page. -/
def Op.Inside (chip : Chip) : Op → Prop
  | .read pg off n => pg < chip.numPages ∧ off + n ≤ chip.pageSize
  | .program pg off bs => pg < chip.numPages ∧ off + bs.length ≤ chip.pageSize
  | .erase pg => pg < chip.numPages

def Op.isRead : Op → Bool
  | .read _ _ _ => true
  | _ => false

section

variable {chip : Chip} {ops ops' : List Op} {c : Cells} {pg pg' off a : Nat} {bs : List UInt8}
  {page : Nat → UInt8}

theorem applyAll_append : chip.applyAll (ops ++ ops') c = chip.applyAll ops' (chip.applyAll ops c) :=
  List.foldl_append

theorem applyAll_cons {op : Op} : chip.applyAll (op :: ops) c = chip.applyAll ops (chip.apply op c) := rfl

theorem applyAll_nil : chip.applyAll [] c = c := rfl

theorem applyAll_reads (h : ∀ op ∈ ops, op.isRead = true) : chip.applyAll ops c = c := by
  induction ops with
  | nil => rfl
  | cons op ops ih =>
    have hop := h op List.mem_cons_self
    cases op with
    | read pg off n => exact ih fun op hop => h op (List.mem_cons_of_mem _ hop)
    | program pg off bs => cases hop
    | erase pg => cases hop

/-- Pages that are neither programmed nor erased keep their cells. -/
theorem applyAll_other (h : ∀ op ∈ ops, ∀ off bs, op ≠ .program pg off bs ∧ op ≠ .erase pg) :
    chip.applyAll ops c pg = c pg := by
  induction ops generalizing c with
  | nil => rfl
  | cons op ops ih =>
    have hop := h op List.mem_cons_self
    refine (ih fun op hop => h op (List.mem_cons_of_mem _ hop)).trans ?_
    cases op with
    | read pg' off n => rfl
    | program pg' off bs => exact Function.update_of_ne (fun he => (hop off bs).1 (by rw [he])) _ _
    | erase pg' => exact Function.update_of_ne (fun he => (hop 0 []).2 (by rw [he])) _ _

theorem apply_erase_self : chip.apply (.erase pg) c pg = fun _ => 0xFF := Function.update_self _ _ _

theorem apply_erase_other (h : pg' ≠ pg) : chip.apply (.erase pg) c pg' = c pg' := Function.update_of_ne h _ _

theorem apply_program_self : chip.apply (.program pg off bs) c pg = chip.blend off bs (c pg) :=
  Function.update_self _ _ _

theorem apply_program_other (h : pg' ≠ pg) : chip.apply (.program pg off bs) c pg' = c pg' :=
  Function.update_of_ne h _ _

theorem blend_outside (h : a < off ∨ off + bs.length ≤ a) : chip.blend off bs page a = page a := by
  unfold Chip.blend
  split
  · rw [List.getElem?_eq_none (by omega)]
    rfl
  · rfl

/-- Erased cells take any value; a random-access chip takes it anyhow. -/
theorem blend_eq_blit (h : chip.overwrites = true ∨ ∀ i < bs.length, page (off + i) = 0xFF) :
    chip.blend off bs page = blit off bs page := by
  funext a
  unfold Chip.blend blit
  split
  · rename_i ha
    by_cases hlt : a - off < bs.length
    · rw [List.getElem?_eq_getElem hlt]
      simp only [Option.elim_some, Option.getD_some, Chip.put]
      rcases h with h | h
      · rw [if_pos h]
      · have hpage := h (a - off) hlt
        rw [show off + (a - off) = a by omega] at hpage
        rw [hpage]
        split
        · rfl
        · exact UInt8.neg_one_and
    · rw [List.getElem?_eq_none (by omega)]
      rfl
  · rfl

/-- Cells that are erased, or programmed in the same way already, take their values. -/
theorem blend_slice {T : Nat → UInt8} {n : Nat} (h : ∀ i < n, page (off + i) = 0xFF ∨ page (off + i) = T (off + i)) :
    chip.blend off (slice off n T) page a = if off ≤ a ∧ a < off + n then T a else page a := by
  by_cases hin : off ≤ a ∧ a < off + n
  · have hat := h (a - off) (by omega)
    rw [Nat.add_sub_cancel' hin.1] at hat
    have hget : (slice off n T)[a - off]? = some (T a) := by
      simp only [slice, List.getElem?_map, List.getElem?_range (show a - off < n by omega), Option.map_some]
      rw [Nat.add_sub_cancel' hin.1]
    rw [if_pos hin, Chip.blend, if_pos hin.1, hget, Option.elim_some, Chip.put]
    split
    · rfl
    · rcases hat with hat | hat
      · rw [hat]
        exact UInt8.neg_one_and
      · rw [hat, UInt8.and_self]
  · rw [if_neg hin, blend_outside]
    rw [Ring.length_slice]
    omega

/-- Writing what is there. -/
theorem blit_same (h : ∀ i (hi : i < bs.length), page (off + i) = bs[i]) : blit off bs page = page := by
  funext a
  unfold blit
  split
  · by_cases hlt : a - off < bs.length
    · rw [List.getElem?_eq_getElem hlt, Option.getD_some, ← h (a - off) hlt]
      congr 1
      omega
    · rw [List.getElem?_eq_none (by omega)]
      rfl
  · rfl

theorem slice_congr {page' : Nat → UInt8} {q w : Nat} (h : ∀ i < w, page' (q + i) = page (q + i)) :
    slice q w page' = slice q w page :=
  List.map_congr_left fun i hi => h i (List.mem_range.mp hi)

theorem blend_append {bs' : List UInt8} :
    chip.blend (off + bs.length) bs' (chip.blend off bs page) = chip.blend off (bs ++ bs') page := by
  funext a
  by_cases hlo : a < off
  · rw [blend_outside (.inl (by omega)), blend_outside (.inl hlo), blend_outside (.inl hlo)]
  · by_cases hmid : a < off + bs.length
    · rw [blend_outside (.inl hmid)]
      unfold Chip.blend
      rw [if_pos (by omega), if_pos (by omega), List.getElem?_append_left (by omega)]
    · have hout : chip.blend off bs page a = page a := blend_outside (.inr (by omega))
      unfold Chip.blend at hout ⊢
      rw [if_pos (by omega), if_pos (by omega), if_pos (by omega), List.getElem?_append_right (by omega)]
      rw [if_pos (by omega)] at hout
      rw [hout, show a - (off + bs.length) = a - off - bs.length by omega]

end

/-! ## linear addresses -/

section

variable {chip : Chip} {c : Cells} {base x n : Nat} {bs : List UInt8}

/-- The cells of the pages from `base` on, one behind the other. -/
def Chip.line (chip : Chip) (base : Nat) (c : Cells) : Nat → UInt8 := fun x =>
  c (base + x / chip.pageSize) (x % chip.pageSize)

theorem div_add_of_inside {ps i : Nat} (h : x % ps + i < ps) : (x + i) / ps = x / ps ∧ (x + i) % ps = x % ps + i := by
  have hx := Nat.div_add_mod x ps
  have hsplit : x + i = (x % ps + i) + ps * (x / ps) := by omega
  constructor
  · rw [hsplit, Nat.add_mul_div_left _ _ (by omega), Nat.div_eq_of_lt h, Nat.zero_add]
  · rw [hsplit, Nat.add_mul_mod_self_left, Nat.mod_eq_of_lt h]

theorem slice_line (h : x % chip.pageSize + n ≤ chip.pageSize) :
    slice (x % chip.pageSize) n (c (base + x / chip.pageSize)) = slice x n (chip.line base c) := by
  apply List.map_congr_left
  intro i hi
  have hi := List.mem_range.mp hi
  obtain ⟨hdiv, hmod⟩ := div_add_of_inside (show x % chip.pageSize + i < chip.pageSize by omega)
  unfold Chip.line
  rw [hdiv, hmod]

/-- Programming inside of a page is programming the line. -/
theorem line_program (h : x % chip.pageSize + bs.length ≤ chip.pageSize) :
    chip.line base (chip.apply (.program (base + x / chip.pageSize) (x % chip.pageSize) bs) c) =
      chip.blend x bs (chip.line base c) := by
  funext y
  have hy := Nat.div_add_mod y chip.pageSize
  have hx := Nat.div_add_mod x chip.pageSize
  show chip.apply _ c (base + y / chip.pageSize) (y % chip.pageSize) = _
  by_cases hpage : y / chip.pageSize = x / chip.pageSize
  · rw [hpage, apply_program_self]
    rw [hpage] at hy
    unfold Chip.blend Chip.line
    by_cases hle : x % chip.pageSize ≤ y % chip.pageSize
    · rw [if_pos hle, if_pos (by omega), hpage,
        show y % chip.pageSize - x % chip.pageSize = y - x by omega]
    · rw [if_neg hle, if_neg (by omega), hpage]
  · rw [apply_program_other (by omega), blend_outside]
    · rfl
    · -- another page is in front of the cells programmed or behind them
      rcases Nat.lt_or_gt_of_ne hpage with hlt | hgt
      · left
        have hmul := Nat.mul_le_mul_left chip.pageSize hlt
        rw [Nat.mul_succ] at hmul
        by_cases hps : chip.pageSize = 0
        · simp [hps] at hlt
        · have hymod := Nat.mod_lt y (Nat.pos_of_ne_zero hps)
          omega
      · right
        have hmul := Nat.mul_le_mul_left chip.pageSize hgt
        rw [Nat.mul_succ] at hmul
        omega

/-- Pages elsewhere do not matter. -/
theorem line_congr {c' : Cells} (h : c' (base + x / chip.pageSize) = c (base + x / chip.pageSize)) :
    chip.line base c' x = chip.line base c x := congrFun h _

end

/-! ## drivers -/

/-- A chip with the driver's state; `log` lists the accesses made, and `faults` has
the fate of the next ones: `some e` fails with the code `e`. -/
structure Medium (σ : Type) where
  obj : σ
  cells : Cells
  log : List Op
  faults : List (Option Int)

abbrev M (σ : Type) := StateM (Medium σ)

section

variable {σ α β : Type} (chip : Chip)

def access (op : Op) : M σ (Except Int Unit) := fun m =>
  match m.faults with
  | some e :: fs => (.error e, { m with faults := fs })
  | none :: fs =>
    (.ok (), { m with cells := chip.apply op m.cells, log := m.log ++ [op], faults := fs })
  | [] => (.ok (), { m with cells := chip.apply op m.cells, log := m.log ++ [op] })

def read (pg off n : Nat) : M σ (Except Int (List UInt8)) := do
  match ← access chip (.read pg off n) with
  | .error e => pure (.error e)
  | .ok () => return .ok (slice off n ((← get).cells pg))

def write (pg off : Nat) (bs : List UInt8) : M σ (Except Int Unit) := access chip (.program pg off bs)

def pageErase (pg : Nat) : M σ (Except Int Unit) := access chip (.erase pg)

def getObj : M σ σ := return (← get).obj

def setObj (o : σ) : M σ Unit := modify fun m => { m with obj := o }

/-- On cells `c` without faults and with the driver state `o`, the program returns
`r`, leaves the state `o'`, and makes the accesses `ops`. -/
def Does (f : M σ α) (o : σ) (c : Cells) (r : α) (o' : σ) (ops : List Op) : Prop :=
  ∀ log, f ⟨o, c, log, []⟩ = (r, ⟨o', chip.applyAll ops c, log ++ ops, []⟩)

/-- The program returns `r` and only reads, inside of pages. -/
def Peeks (f : M σ α) (o : σ) (c : Cells) (r : α) : Prop :=
  ∃ ops, Does chip f o c r o ops ∧ ∀ op ∈ ops, op.isRead = true ∧ op.Inside chip

variable {chip} {f : M σ α} {g : α → M σ β} {o o' o'' : σ} {c : Cells} {r : α} {s : β} {ops ops' : List Op}
  {pg off n : Nat} {bs : List UInt8}

theorem Does.pure (r : α) : Does chip (Pure.pure r : M σ α) o c r o [] := fun log => by
  rw [List.append_nil]
  rfl

theorem Does.bind (hf : Does chip f o c r o' ops) (hg : Does chip (g r) o' (chip.applyAll ops c) s o'' ops') :
    Does chip (f >>= g) o c s o'' (ops ++ ops') := fun log => by
  show (match f ⟨o, c, log, []⟩ with | (r, m) => g r m) = _
  rw [hf log]
  show g r _ = _
  rw [hg (log ++ ops), applyAll_append, List.append_assoc]

theorem does_read : Does chip (read chip pg off n) o c (.ok (slice off n (c pg))) o [.read pg off n] :=
  fun _ => rfl

theorem does_write : Does chip (write chip pg off bs) o c (.ok ()) o [.program pg off bs] := fun _ => rfl

theorem does_pageErase : Does chip (pageErase chip pg) o c (.ok ()) o [.erase pg] := fun _ => rfl

theorem does_getObj : Does chip getObj o c o o [] := fun log => by
  rw [List.append_nil]
  rfl

theorem Does.getObj {g : σ → M σ β} (hg : Does chip (g o) o c s o' ops) :
    Does chip (Flash.getObj >>= g) o c s o' ops := does_getObj.bind hg

theorem does_setObj : Does chip (setObj o') o c () o' [] := fun log => by
  rw [List.append_nil]
  rfl

theorem Peeks.pure (r : α) : Peeks chip (Pure.pure r : M σ α) o c r := ⟨[], .pure r, fun _ h => by cases h⟩

theorem Peeks.bind (hf : Peeks chip f o c r) (hg : Peeks chip (g r) o c s) : Peeks chip (f >>= g) o c s := by
  obtain ⟨ops, hf, hops⟩ := hf
  obtain ⟨ops', hg, hops'⟩ := hg
  have hcells : chip.applyAll ops c = c := applyAll_reads fun op hop => (hops op hop).1
  refine ⟨ops ++ ops', hf.bind (by rwa [hcells]), fun op hop => ?_⟩
  rcases List.mem_append.mp hop with hop | hop
  · exact hops op hop
  · exact hops' op hop

theorem peeks_read (hpg : pg < chip.numPages) (hoff : off + n ≤ chip.pageSize) :
    Peeks chip (read chip pg off n) o c (.ok (slice off n (c pg))) := by
  refine ⟨_, does_read, fun op hop => ?_⟩
  rw [List.mem_singleton.mp hop]
  exact ⟨rfl, hpg, hoff⟩

theorem Peeks.exists_ops (h : Peeks chip f o c r) :
    ∃ ops, Does chip f o c r o ops ∧ (∀ op ∈ ops, op.isRead = true) ∧ (∀ op ∈ ops, op.Inside chip) ∧
      chip.applyAll ops c = c := by
  obtain ⟨ops, hdoes, hops⟩ := h
  exact ⟨ops, hdoes, fun op hop => (hops op hop).1, fun op hop => (hops op hop).2,
    applyAll_reads fun op hop => (hops op hop).1⟩

theorem Peeks.eq (h : Peeks chip f o c r) (log : List Op) :
    ∃ ops, f ⟨o, c, log, []⟩ = (r, ⟨o, c, log ++ ops, []⟩) ∧ (∀ op ∈ ops, op.isRead = true) ∧
      ∀ op ∈ ops, op.Inside chip := by
  obtain ⟨ops, hdoes, hreads, hin, hcells⟩ := h.exists_ops
  exact ⟨ops, by rw [hdoes log, hcells], hreads, hin⟩

theorem peeks_getObj : Peeks chip getObj o c o := ⟨[], does_getObj, fun _ h => by cases h⟩

end

end Flash
