import Isix.Lib.Tiling
import Isix.Seqfit

/-!
# Isix.Properties.SeqfitLayout

The headers of the heap as a list of blocks.  `Laid` says what is in the headers
of a list of blocks; it fixes the free list, because the link of a free block is
the address of the next free one.  A change of the list that the allocator makes
— a block is taken, put back, or two blocks become one — is a lemma here.
-/

namespace Isix.Seqfit

open Memory Tiling

/-! ## headers -/

/-- The headers of the blocks from `a` on; `n` is the first free block behind them. -/
def Laid (m : Mem) (a : Nat) : List Block → Nat → Prop
  | [], _ => True
  | b :: l, n => size a m = b.size ∧
    next a m = (if b.used then magic else nextFree 8 (a + 8 + b.size) l n) ∧
    Laid m (a + 8 + b.size) l n

section

variable {m m' : Mem} {a d n n' : Nat} {b : Block} {l l₁ l₂ : List Block}

theorem laid_append : Laid m a (l₁ ++ l₂) n ↔
    Laid m a l₁ (nextFree 8 (endOf 8 a l₁) l₂ n) ∧ Laid m (endOf 8 a l₁) l₂ n := by
  induction l₁ generalizing a with
  | nil => simp [Laid, endOf]
  | cons b l ih => simp only [List.cons_append, Laid, endOf, ih, nextFree_append, and_assoc]

theorem Laid.congr (h : Laid m a l n)
    (hm : ∀ p ∈ place 8 a l, next p.1 m' = next p.1 m ∧ size p.1 m' = size p.1 m) : Laid m' a l n := by
  induction l generalizing a with
  | nil => trivial
  | cons b l ih =>
    have hb := hm (a, b) List.mem_cons_self
    exact ⟨hb.2.trans h.1, hb.1.trans h.2.1, ih h.2.2 fun p hp => hm p (List.mem_cons_of_mem _ hp)⟩

/-- The blocks are used up to the end: what follows does not matter. -/
theorem nextFree_ne_last (h : lastFree 8 d a l ≠ d) : nextFree 8 a l n = nextFree 8 a l n' := by
  rcases nextFree_cases 8 a l with hu | ⟨u, b, v, -, -, -, hn⟩
  · exact absurd (lastFree_of_used hu) h
  · rw [hn, hn]

theorem lastFree_mem (h : lastFree 8 d a l ≠ d) : ∃ b, (lastFree 8 d a l, b) ∈ place 8 a l ∧
    b.used = false := by
  rcases lastFree_cases 8 a l with hu | ⟨u, b, v, rfl, -, hb, hl⟩
  · exact absurd (lastFree_of_used hu) h
  · exact ⟨b, mem_place.mpr ⟨u, v, rfl, hl d⟩, hb⟩

/-- The last free block is linked to another one. -/
theorem Laid.relink (h : Laid m a l n) (hd : ∀ p ∈ place 8 a l, p.1 ≠ d)
    (hm : ∀ p ∈ place 8 a l, size p.1 m' = size p.1 m ∧
      (p.1 ≠ lastFree 8 d a l → next p.1 m' = next p.1 m))
    (hq : lastFree 8 d a l ≠ d → next (lastFree 8 d a l) m' = n') : Laid m' a l n' := by
  induction l generalizing a d with
  | nil => trivial
  | cons b l ih =>
    have hb := hm (a, b) List.mem_cons_self
    have hda : a ≠ d := hd (a, b) List.mem_cons_self
    have htail : ∀ p ∈ place 8 (a + 8 + b.size) l, p.1 ≠ a := fun p hp => by
      have := (bounds hp).1
      omega
    cases hu : b.used with
    | true =>
      have hlast : lastFree 8 d a (b :: l) = lastFree 8 d (a + 8 + b.size) l := by
        rw [lastFree, if_pos hu]
      rw [hlast] at hb hm hq
      have hne : a ≠ lastFree 8 d (a + 8 + b.size) l := by
        intro he
        by_cases hld : lastFree 8 d (a + 8 + b.size) l = d
        · exact hda (he.trans hld)
        · obtain ⟨c, hc, -⟩ := lastFree_mem hld
          exact htail _ hc he.symm
      refine ⟨hb.1.trans h.1, ?_, ih h.2.2 (fun p hp => hd p (List.mem_cons_of_mem _ hp))
        (fun p hp => hm p (List.mem_cons_of_mem _ hp)) hq⟩
      rw [hb.2 hne, h.2.1, if_pos hu, if_pos hu]
    | false =>
      have hlast : lastFree 8 d a (b :: l) = lastFree 8 a (a + 8 + b.size) l := by
        rw [lastFree, hu]
        rfl
      rw [hlast] at hb hm hq
      have hnext : next a m' = nextFree 8 (a + 8 + b.size) l n' := by
        by_cases hla : lastFree 8 a (a + 8 + b.size) l = a
        · rw [hla] at hq
          rcases lastFree_cases 8 (a + 8 + b.size) l with hall | ⟨u, c, v, rfl, -, -, hl⟩
          · rw [nextFree_of_used hall]
            exact hq hda
          · have hge := le_endOf (w := 8) (a + 8 + b.size) u
            rw [← hl a, hla] at hge
            omega
        · rw [hb.2 (Ne.symm hla), h.2.1, hu]
          exact nextFree_ne_last hla
      refine ⟨hb.1.trans h.1, by rw [hnext, hu]; rfl, ih h.2.2 htail
        (fun p hp => hm p (List.mem_cons_of_mem _ hp)) fun hne => hq ?_⟩
      obtain ⟨c, hc, -⟩ := lastFree_mem hne
      exact hd (_, c) (List.mem_cons_of_mem _ hc)

end

/-! ## words of headers -/

/-- The address of a header: `heap.free`, or a place in the region. -/
def Header (R : Region) (x : Nat) : Prop := x = R.heap ∨ 8 ∣ x ∧ R.start ≤ x ∧ x + 8 ≤ R.start + R.len

section

variable {R : Region} {x y v : Nat} {m : Mem}

theorem Header.align (h : Header R x) : 4 ∣ x := by
  have ha := R.heap_align
  rcases h with rfl | h
  · exact ha
  · omega

/-- Two headers are the same or apart, and `heap.used` is in none. -/
theorem Header.apart (hx : Header R x) (hy : Header R y) : x = y ∨ x + 8 ≤ y ∨ y + 8 ≤ x := by
  have ha := R.apart
  rcases hx with rfl | hx <;> rcases hy with rfl | hy <;> omega

theorem Header.apart_used (hx : Header R x) : x + 8 ≤ R.heap + 8 ∨ R.heap + 12 ≤ x := by
  have ha := R.apart
  rcases hx with rfl | hx <;> omega

variable (R)

theorem next_setNext (hx : Header R x) (hy : Header R y) (hv : v < 2 ^ 32) :
    next y (setNext x v m) = if y = x then v else next y m :=
  word_store hx.align hy.align hv

theorem size_setNext (hx : Header R x) (hy : Header R y) : size y (setNext x v m) = size y m := by
  have h := hx.apart hy
  exact load_store_disjoint (by omega)

theorem next_setSize (hx : Header R x) (hy : Header R y) : next y (setSize x v m) = next y m := by
  have h := hx.apart hy
  exact load_store_disjoint (by omega)

theorem size_setSize (hx : Header R x) (hy : Header R y) (hv : v < 2 ^ 32) :
    size y (setSize x v m) = if y = x then v else size y m := by
  have hx' := hx.align
  have hy' := hy.align
  have h : size y (setSize x v m) = if y + 4 = x + 4 then v else size y m :=
    word_store (by omega) (by omega) hv
  simpa using h

theorem next_setUsed (hy : Header R y) : next y (setUsed R v m) = next y m := by
  have h := hy.apart_used
  exact load_store_disjoint (by omega)

theorem size_setUsed (hy : Header R y) : size y (setUsed R v m) = size y m := by
  have h := hy.apart_used
  exact load_store_disjoint (by omega)

theorem used_setNext (hx : Header R x) : used R (setNext x v m) = used R m := by
  have h := hx.apart_used
  exact load_store_disjoint (by omega)

theorem used_setSize (hx : Header R x) : used R (setSize x v m) = used R m := by
  have h := hx.apart_used
  exact load_store_disjoint (by omega)

theorem used_setUsed (hv : v < 2 ^ 32) : used R (setUsed R v m) = v := by
  rw [used, setUsed, load_store_self]
  exact Nat.mod_eq_of_lt (by omega)

end

/-! ## the heap as a list of blocks -/

/-- The headers are those of the blocks `l`. -/
structure Laying (R : Region) (m : Mem) (l : List Block) : Prop where
  ends : endOf 8 R.start l = R.start + R.len
  sizes : ∀ b ∈ l, 8 ∣ b.size
  laid : Laid m R.start l 0
  head : next R.heap m = nextFree 8 R.start l 0
  sentinel : size R.heap m = 0

section

variable {R : Region} {m m' : Mem} {l l₁ l₂ l₂' : List Block} {b c : Block} {x : Nat}

theorem dvd_endOf {a : Nat} (ha : 8 ∣ a) (hs : ∀ b ∈ l, 8 ∣ b.size) : 8 ∣ endOf 8 a l := by
  induction l generalizing a with
  | nil => exact ha
  | cons b l ih =>
    have hb := hs b List.mem_cons_self
    exact ih (by omega) fun c hc => hs c (List.mem_cons_of_mem _ hc)

theorem Laying.header (h : Laying R m l) (hx : (x, b) ∈ place 8 R.start l) : Header R x := by
  obtain ⟨h₁, h₂⟩ := bounds hx
  rw [h.ends] at h₂
  obtain ⟨u, v, rfl, rfl⟩ := mem_place.mp hx
  exact .inr ⟨dvd_endOf R.start_align fun c hc => h.sizes c (by simp [hc]), h₁, by omega⟩

/-- The words of the headers stay. -/
theorem Laying.congr (h : Laying R m l)
    (hm : ∀ x, Header R x → next x m' = next x m ∧ size x m' = size x m) : Laying R m' l where
  ends := h.ends
  sizes := h.sizes
  laid := h.laid.congr fun p hp => hm p.1 (h.header hp)
  head := (hm R.heap (.inl rfl)).1.trans h.head
  sentinel := (hm R.heap (.inl rfl)).2.trans h.sentinel

theorem Laying.setUsed (h : Laying R m l) (v : Nat) : Laying R (setUsed R v m) l :=
  h.congr fun _ hx => ⟨next_setUsed R hx, size_setUsed R hx⟩

/-- The header of a block inside the list. -/
theorem Laying.block (h : Laying R m (l₁ ++ b :: l₂)) :
    Header R (endOf 8 R.start l₁) ∧ size (endOf 8 R.start l₁) m = b.size ∧
      next (endOf 8 R.start l₁) m = (if b.used then magic
        else nextFree 8 (endOf 8 R.start l₁ + 8 + b.size) l₂ 0) ∧
      R.start ≤ endOf 8 R.start l₁ ∧ endOf 8 R.start l₁ + 8 + b.size ≤ R.start + R.len ∧ 8 ∣ b.size := by
  have hmem : (endOf 8 R.start l₁, b) ∈ place 8 R.start (l₁ ++ b :: l₂) := mem_place.mpr ⟨l₁, l₂, rfl, rfl⟩
  have hlaid := (laid_append.mp h.laid).2
  have hb := bounds hmem
  rw [h.ends] at hb
  exact ⟨h.header hmem, hlaid.1, hlaid.2.1, hb.1, hb.2, h.sizes b (by simp)⟩

theorem Laying.last (h : Laying R m (l₁ ++ l₂)) : Header R (lastFree 8 R.heap R.start l₁) := by
  by_cases hq : lastFree 8 R.heap R.start l₁ = R.heap
  · exact .inl hq
  · obtain ⟨b, hb, -⟩ := lastFree_mem hq
    refine h.header (b := b) ?_
    rw [place_append]
    exact List.mem_append_left _ hb

/-- The link of the last free block before a place. -/
theorem Laying.next_last (h : Laying R m (l₁ ++ l₂)) :
    next (lastFree 8 R.heap R.start l₁) m = nextFree 8 (endOf 8 R.start l₁) l₂ 0 := by
  rcases lastFree_cases 8 R.start l₁ with hu | ⟨u, b, v, rfl, hv, hb, hl⟩
  · rw [lastFree_of_used hu, h.head, nextFree_append, nextFree_of_used hu]
  · rw [hl]
    have hlaid := h.laid
    rw [List.append_assoc, List.cons_append, laid_append] at hlaid
    rw [hlaid.2.2.1, hb, endOf_append]
    simp only [Bool.false_eq_true, if_false]
    rw [nextFree_append, nextFree_of_used hv]
    rfl

/-- **Edit**: the blocks behind `l₁` are replaced, and the last free block of
`l₁` is linked to them. -/
theorem Laying.edit (h : Laying R m (l₁ ++ l₂))
    (hend : endOf 8 (endOf 8 R.start l₁) l₂' = R.start + R.len) (hsz : ∀ b ∈ l₂', 8 ∣ b.size)
    (hq : next (lastFree 8 R.heap R.start l₁) m' = nextFree 8 (endOf 8 R.start l₁) l₂' 0)
    (hm : ∀ x, (x = R.heap ∨ ∃ b, (x, b) ∈ place 8 R.start l₁) → size x m' = size x m ∧
      (x ≠ lastFree 8 R.heap R.start l₁ → next x m' = next x m))
    (hl : Laid m' (endOf 8 R.start l₁) l₂' 0) : Laying R m' (l₁ ++ l₂') := by
  refine ⟨by rw [endOf_append]; exact hend, fun b hb => ?_, laid_append.mpr ⟨?_, hl⟩, ?_, ?_⟩
  · rcases List.mem_append.mp hb with hb | hb
    · exact h.sizes b (List.mem_append_left _ hb)
    · exact hsz b hb
  · refine (laid_append.mp h.laid).1.relink (fun p hp => ?_) (fun p hp => hm p.1 (.inr ⟨p.2, hp⟩))
      fun _ => hq
    have hb := bounds hp
    have hle := le_endOf (w := 8) (endOf 8 R.start l₁) l₂
    have hends := h.ends
    have ha := R.apart
    rw [endOf_append] at hends
    omega
  · rw [nextFree_append]
    rcases lastFree_cases 8 R.start l₁ with hu | ⟨u, b, v, rfl, hv, hb, hlast⟩
    · rw [lastFree_of_used hu] at hq
      rw [nextFree_of_used hu]
      exact hq
    · have hne : R.heap ≠ lastFree 8 R.heap R.start (u ++ b :: v) := by
        rw [hlast]
        have hblk := (show Laying R m (u ++ b :: (v ++ l₂)) by
          rw [← List.cons_append, ← List.append_assoc]; exact h).block
        have ha := R.apart
        omega
      rw [(hm R.heap (.inl rfl)).2 hne, h.head, nextFree_append]
      refine nextFree_ne_last (d := R.heap) fun he => hne ?_
      exact he.symm
  · exact (hm R.heap (.inl rfl)).1.trans h.sentinel

/-- The last free block before a place lies before it. -/
theorem lastFree_place (R : Region) (l₁ : List Block) : lastFree 8 R.heap R.start l₁ = R.heap ∨
    ∃ c, (lastFree 8 R.heap R.start l₁, c) ∈ place 8 R.start l₁ ∧
      lastFree 8 R.heap R.start l₁ + 8 + c.size ≤ endOf 8 R.start l₁ := by
  by_cases h : lastFree 8 R.heap R.start l₁ = R.heap
  · exact .inl h
  · obtain ⟨c, hc, -⟩ := lastFree_mem h
    exact .inr ⟨c, hc, (bounds hc).2⟩

theorem sub_eq {a b : Nat} (h : b ≤ a) (ha : a < sizeMod) : sub a b = a - b := by
  unfold sub
  rw [show a + (sizeMod - b) = a - b + sizeMod by omega, Nat.add_mod_right]
  exact Nat.mod_eq_of_lt (by omega)

end

/-- A block in its place: `hp` is its address, `qp` the last free block before it. -/
structure Spot (R : Region) (m : Mem) (l₁ : List Block) (b : Block) (l₂ : List Block) (qp hp : Nat) :
    Prop where
  laying : Laying R m (l₁ ++ b :: l₂)
  hp_eq : endOf 8 R.start l₁ = hp
  qp_eq : lastFree 8 R.heap R.start l₁ = qp
  header : Header R hp
  header_last : Header R qp
  last : qp = R.heap ∨ qp + 8 ≤ hp
  size_eq : size hp m = b.size
  next_eq : next hp m = if b.used then magic else nextFree 8 (hp + 8 + b.size) l₂ 0
  next_last : next qp m = nextFree 8 hp (b :: l₂) 0
  start_le : R.start ≤ hp
  le_end : hp + 8 + b.size ≤ R.start + R.len
  dvd : 8 ∣ b.size
  ends : endOf 8 (hp + 8 + b.size) l₂ = R.start + R.len
  before : ∀ x, (x = R.heap ∨ ∃ c, (x, c) ∈ place 8 R.start l₁) →
    Header R x ∧ (x = R.heap ∨ x + 8 ≤ hp)
  behind : ∀ p ∈ place 8 (hp + 8 + b.size) l₂, Header R p.1 ∧ hp + 8 + b.size ≤ p.1 ∧ p.1 ≠ qp
  tail : Laid m (hp + 8 + b.size) l₂ 0

section

variable {R : Region} {m m' : Mem} {l₁ l₂ l₂' : List Block} {b : Block} {n qp hp : Nat}

theorem Laying.spot (h : Laying R m (l₁ ++ b :: l₂)) :
    Spot R m l₁ b l₂ (lastFree 8 R.heap R.start l₁) (endOf 8 R.start l₁) where
  laying := h
  hp_eq := rfl
  qp_eq := rfl
  header := h.block.1
  header_last := h.last
  last := by
    by_cases hq : lastFree 8 R.heap R.start l₁ = R.heap
    · exact .inl hq
    · obtain ⟨c, hc, -⟩ := lastFree_mem hq
      have hb := (bounds hc).2
      exact .inr (by omega)
  size_eq := h.block.2.1
  next_eq := h.block.2.2.1
  next_last := h.next_last
  start_le := h.block.2.2.2.1
  le_end := h.block.2.2.2.2.1
  dvd := h.block.2.2.2.2.2
  ends := by
    have he := h.ends
    rwa [endOf_append] at he
  before := by
    rintro x (rfl | ⟨c, hc⟩)
    · exact ⟨.inl rfl, .inl rfl⟩
    · have hb := (bounds hc).2
      exact ⟨h.header (by rw [place_append]; exact List.mem_append_left _ hc), .inr (by omega)⟩
  behind p hp := by
    have hmem : (p.1, p.2) ∈ place 8 R.start (l₁ ++ b :: l₂) := by
      rw [place_append]
      exact List.mem_append_right _ (List.mem_cons_of_mem _ hp)
    refine ⟨h.header hmem, (bounds hp).1, fun hq => ?_⟩
    have hb := bounds hmem
    have hle := (bounds hp).1
    have ha := R.apart
    rw [h.ends] at hb
    rcases lastFree_place R l₁ with hl | ⟨c, -, hl⟩ <;> omega
  tail := (laid_append.mp h.laid).2.2.2

section

variable (h : Spot R m l₁ b l₂ qp hp)

include h

/-- A header before the block is not in it. -/
theorem Spot.before_ne {x y : Nat} (hx : x = R.heap ∨ x + 8 ≤ hp)
    (hy : hp ≤ y) (hy' : y < hp + 8 + b.size) : x ≠ y := by
  have ha := R.apart
  have h₁ := h.start_le
  have h₂ := h.le_end
  omega

theorem Spot.ne : qp ≠ hp :=
  h.before_ne h.last (Nat.le_refl _) (by omega)

theorem Spot.lt : hp + 8 + b.size < 2 ^ 32 :=
  Nat.lt_of_le_of_lt h.le_end R.start_fits

/-- `Laying.edit` at a block. -/
theorem Spot.edit (hend : endOf 8 hp l₂' = R.start + R.len)
    (hsz : ∀ b ∈ l₂', 8 ∣ b.size) (hq : next qp m' = nextFree 8 hp l₂' 0)
    (hm : ∀ x, Header R x → (x = R.heap ∨ x + 8 ≤ hp) → size x m' = size x m ∧
      (x ≠ qp → next x m' = next x m))
    (hl : Laid m' hp l₂' 0) : Laying R m' (l₁ ++ l₂') := by
  refine h.laying.edit (by rw [h.hp_eq]; exact hend) hsz (by rw [h.qp_eq, h.hp_eq]; exact hq)
    (fun x hx => ?_) (by rw [h.hp_eq]; exact hl)
  obtain ⟨hh, hx⟩ := h.before x hx
  rw [h.qp_eq]
  exact hm x hh hx

/-- The blocks behind are not written. -/
theorem Spot.tail_congr
    (hm : ∀ x, Header R x → hp + 8 + b.size ≤ x → x ≠ qp → next x m' = next x m ∧ size x m' = size x m) :
    Laid m' (hp + 8 + b.size) l₂ 0 :=
  h.tail.congr fun p hp => hm p.1 (h.behind p hp).1 (h.behind p hp).2.1 (h.behind p hp).2.2

theorem Spot.sizes_behind : ∀ c ∈ l₂, 8 ∣ c.size := fun c hc =>
  h.laying.sizes c (by simp [hc])

end

end

/-! ## taking a block -/

/-- A block of `n` bytes is cut from the block `b`. -/
def cut (n : Nat) (b : Block) : List Block :=
  if b.size < n + 8 then [⟨n, true⟩] else [⟨n, true⟩, ⟨b.size - 8 - n, false⟩]

section

variable {R : Region} {m : Mem} {l₁ l₂ : List Block} {b : Block} {n qp hp : Nat}

theorem magic_lt : magic < 2 ^ 32 := by decide

theorem next_lt (x : Nat) (m : Mem) : next x m < 2 ^ 32 := load_lt 4 x m

section

variable (h : Spot R m l₁ b l₂ qp hp)

include h

/-- The whole block is taken. -/
theorem Spot.take_whole (hb : b.used = false) (hn : b.size = n) (v : Nat) :
    Laying R (setUsed R v (setNext hp magic (setNext qp (next hp m) m))) (l₁ ++ ⟨n, true⟩ :: l₂) := by
  have hne := h.ne
  have hhp := h.header
  have hqp := h.header_last
  have hnext := h.next_eq
  rw [hb, if_neg (by simp)] at hnext
  subst hn
  refine h.edit h.ends (List.forall_mem_cons.mpr ⟨h.dvd, h.sizes_behind⟩) ?_
    (fun x hx hlt => ⟨?_, fun hxq => ?_⟩) ⟨?_, ?_, ?_⟩
  · rw [next_setUsed R hqp, next_setNext R hhp hqp magic_lt, if_neg hne,
      next_setNext R hqp hqp (next_lt _ _), if_pos rfl, hnext]
    rfl
  · rw [size_setUsed R hx, size_setNext R hhp hx, size_setNext R hqp hx]
  · have hxp := h.before_ne hlt (Nat.le_refl _) (by omega)
    rw [next_setUsed R hx, next_setNext R hhp hx magic_lt, if_neg hxp,
      next_setNext R hqp hx (next_lt _ _), if_neg hxq]
  · rw [size_setUsed R hhp, size_setNext R hhp hhp, size_setNext R hqp hhp, h.size_eq]
  · rw [next_setUsed R hhp, next_setNext R hhp hhp magic_lt, if_pos rfl]
    rfl
  · refine h.tail_congr fun x hx hle hxq => ⟨?_, ?_⟩
    · have hxp : x ≠ hp := by omega
      rw [next_setUsed R hx, next_setNext R hhp hx magic_lt, if_neg hxp,
        next_setNext R hqp hx (next_lt _ _), if_neg hxq]
    · rw [size_setUsed R hx, size_setNext R hhp hx, size_setNext R hqp hx]

theorem Spot.cut_header (hn : n + 8 ≤ b.size) (h8 : 8 ∣ n) :
    Header R (hp + 8 + n) := by
  have hge := h.start_le
  have hle := h.le_end
  have hd : 8 ∣ hp := by
    rcases h.header with hh | hh
    · have hap := R.apart
      omega
    · exact hh.1
  exact .inr ⟨by omega, by omega, by omega⟩

/-- The block is split. -/
theorem Spot.take_part (hb : b.used = false) (hn : n + 8 ≤ b.size)
    (h8 : 8 ∣ n) (v : Nat) :
    Laying R (setUsed R v (setNext hp magic (setSize hp n (setNext qp (hp + 8 + n)
      (setSize (hp + 8 + n) (b.size - 8 - n) (setNext (hp + 8 + n) (next hp m) m))))))
      (l₁ ++ ⟨n, true⟩ :: ⟨b.size - 8 - n, false⟩ :: l₂) := by
  have hne := h.ne
  have hhp := h.header
  have hqp := h.header_last
  have hnext := h.next_eq
  have hlt := h.lt
  have hdvd := h.dvd
  have hge := h.start_le
  have hle := h.le_end
  rw [hb, if_neg (by simp)] at hnext
  have hfp := h.cut_header hn h8
  have hqf := h.before_ne (y := hp + 8 + n) h.last (by omega) (by omega)
  have hn32 : n < 2 ^ 32 := by omega
  have hs32 : b.size - 8 - n < 2 ^ 32 := by omega
  have hf32 : hp + 8 + n < 2 ^ 32 := by omega
  generalize hm' : setUsed R v (setNext hp magic (setSize hp n (setNext qp (hp + 8 + n)
    (setSize (hp + 8 + n) (b.size - 8 - n) (setNext (hp + 8 + n) (next hp m) m))))) = m'
  have hnexts : ∀ x, Header R x → next x m' =
      if x = hp then magic else if x = qp then hp + 8 + n
      else if x = hp + 8 + n then next hp m else next x m := by
    intro x hx
    rw [← hm', next_setUsed R hx, next_setNext R hhp hx magic_lt, next_setSize R hhp hx,
      next_setNext R hqp hx hf32, next_setSize R hfp hx, next_setNext R hfp hx (next_lt _ _)]
  have hsizes : ∀ x, Header R x → size x m' =
      if x = hp then n else if x = hp + 8 + n then b.size - 8 - n else size x m := by
    intro x hx
    rw [← hm', size_setUsed R hx, size_setNext R hhp hx, size_setSize R hhp hx hn32,
      size_setNext R hqp hx, size_setSize R hfp hx hs32, size_setNext R hfp hx]
  have hfree : hp + 8 + n + 8 + (b.size - 8 - n) = hp + 8 + b.size := by omega
  refine h.edit ?_ (fun c hc => ?_) ?_ (fun x hx hlt => ⟨?_, fun hxq => ?_⟩) ⟨?_, ?_, ?_, ?_, ?_⟩
  · simp only [endOf, hfree]
    exact h.ends
  · simp only [List.mem_cons] at hc
    rcases hc with rfl | rfl | hc
    · exact h8
    · show 8 ∣ b.size - 8 - n
      omega
    · exact h.sizes_behind c hc
  · rw [hnexts qp hqp, if_neg hne, if_pos rfl]
    rfl
  · have hxp := h.before_ne hlt (Nat.le_refl _) (by omega)
    have hxf := h.before_ne (y := hp + 8 + n) hlt (by omega) (by omega)
    rw [hsizes x hx, if_neg hxp, if_neg hxf]
  · have hxp := h.before_ne hlt (Nat.le_refl _) (by omega)
    have hxf := h.before_ne (y := hp + 8 + n) hlt (by omega) (by omega)
    rw [hnexts x hx, if_neg hxp, if_neg hxq, if_neg hxf]
  · rw [hsizes hp hhp, if_pos rfl]
  · rw [hnexts hp hhp, if_pos rfl]
    rfl
  · rw [hsizes _ hfp, if_neg (by omega), if_pos rfl]
  · rw [hnexts _ hfp, if_neg (by omega), if_neg hqf.symm, if_pos rfl, hnext, hfree]
    rfl
  · rw [hfree]
    refine h.tail_congr fun x hx hle hxq => ⟨?_, ?_⟩
    · rw [hnexts x hx, if_neg (by omega), if_neg hxq, if_neg (by omega)]
    · rw [hsizes x hx, if_neg (by omega), if_neg (by omega)]

theorem takeBlock_eq (hn : n ≤ b.size) (h8 : 8 ∣ n) : takeBlock R n qp hp m =
    if b.size < n + 8 then
      setUsed R ((used R m + n) % sizeMod) (setNext hp magic (setNext qp (next hp m) m))
    else
      setUsed R ((used R m + n) % sizeMod) (setNext hp magic (setSize hp n (setNext qp (hp + 8 + n)
        (setSize (hp + 8 + n) (b.size - 8 - n) (setNext (hp + 8 + n) (next hp m) m))))) := by
  have hlt := h.lt
  have hhp := h.header
  have hqp := h.header_last
  have hmod : (n + headerSize) % sizeMod = n + 8 := Nat.mod_eq_of_lt (by simp only [headerSize, sizeMod]; omega)
  simp only [takeBlock, h.size_eq, hmod]
  split
  · rw [used_setNext R hhp, used_setNext R hqp]
  · rename_i hcut
    have hdvd := h.dvd
    have hfp := h.cut_header (by omega) h8
    have hfm : (hp + headerSize + n) % sizeMod = hp + 8 + n :=
      Nat.mod_eq_of_lt (by simp only [headerSize, sizeMod]; omega)
    have hsub : sub (sub b.size headerSize) n = b.size - 8 - n := by
      have h₁ : sub b.size headerSize = b.size - 8 :=
        sub_eq (by simp only [headerSize]; omega) (by simp only [sizeMod]; omega)
      rw [h₁]
      exact sub_eq (by omega) (by simp only [sizeMod]; omega)
    rw [hfm, size_setNext R hfp hhp, h.size_eq, hsub, used_setNext R hhp, used_setSize R hhp,
      used_setNext R hqp, used_setSize R hfp, used_setNext R hfp]

/-- **Take**: a block of `n` bytes is cut from a free block. -/
theorem Spot.take (hb : b.used = false) (hn : n ≤ b.size) (h8 : 8 ∣ n) :
    Laying R (takeBlock R n qp hp m) (l₁ ++ (cut n b ++ l₂)) ∧
      used R (takeBlock R n qp hp m) = (used R m + n) % sizeMod := by
  have hdvd := h.dvd
  have hv : (used R m + n) % sizeMod < 2 ^ 32 := Nat.mod_lt _ (by decide)
  rw [takeBlock_eq h hn h8, cut]
  split
  · exact ⟨h.take_whole hb (by omega) _, used_setUsed R hv⟩
  · exact ⟨h.take_part hb (by omega) h8 _, used_setUsed R hv⟩

end

end

/-! ## putting a block back -/

section

variable {R : Region} {m : Mem} {l₁ l₂ u w : List Block} {b c : Block} {n qp hp : Nat}

theorem Header.lt (h : Header R hp) : hp < 2 ^ 32 := by
  have h₁ := R.heap_fits
  have h₂ := R.start_fits
  rcases h with rfl | h <;> omega

/-- The block is on the free list. -/
theorem Spot.insert (h : Spot R m l₁ b l₂ qp hp) (hb : b.used = true) :
    Laying R (linkBlock qp hp m) (l₁ ++ ⟨b.size, false⟩ :: l₂) := by
  have hne := h.ne
  have hhp := h.header
  have hqp := h.header_last
  have hlast := h.next_last
  rw [nextFree, if_pos hb] at hlast
  have hnexts : ∀ x, Header R x → next x (linkBlock qp hp m) =
      if x = qp then hp else if x = hp then next qp m else next x m := by
    intro x hx
    rw [linkBlock, next_setNext R hqp hx hhp.lt, next_setNext R hhp hx (next_lt _ _)]
  have hsizes : ∀ x, Header R x → size x (linkBlock qp hp m) = size x m := by
    intro x hx
    rw [linkBlock, size_setNext R hqp hx, size_setNext R hhp hx]
  refine h.edit h.ends (List.forall_mem_cons.mpr ⟨h.dvd, h.sizes_behind⟩) ?_
    (fun x hx hlt => ⟨hsizes x hx, fun hxq => ?_⟩) ⟨?_, ?_, ?_⟩
  · rw [hnexts qp hqp, if_pos rfl]
    rfl
  · rw [hnexts x hx, if_neg hxq, if_neg (h.before_ne hlt (Nat.le_refl _) (by omega))]
  · rw [hsizes hp hhp, h.size_eq]
  · rw [hnexts hp hhp, if_neg hne.symm, if_pos rfl, hlast]
    rfl
  · refine h.tail_congr fun x hx hle hxq => ⟨?_, hsizes x hx⟩
    rw [hnexts x hx, if_neg hxq, if_neg (by omega)]

/-- **Merge**: a free block takes in the free block behind it. -/
theorem Spot.merge (h : Spot R m u b (c :: w) qp hp) (hb : b.used = false) (hc : c.used = false) :
    Laying R (takeIn hp (hp + 8 + b.size) m) (u ++ ⟨b.size + (c.size + 8), false⟩ :: w) := by
  have hhp := h.header
  have hqp := h.header_last
  have hne := h.ne
  have hlt := h.lt
  have hlaid := h.tail
  have hcb := h.behind (hp + 8 + b.size, c) List.mem_cons_self
  have hends := h.ends
  have hle := le_endOf (w := 8) (hp + 8 + b.size + 8 + c.size) w
  have hfits := R.start_fits
  have hlast := h.next_last
  have hnextc : next (hp + 8 + b.size) m = nextFree 8 (hp + 8 + b.size + 8 + c.size) w 0 := by
    rw [hlaid.2.1, hc]
    rfl
  rw [endOf] at hends
  rw [nextFree, hb] at hlast
  have hm : takeIn hp (hp + 8 + b.size) m = setNext hp (next (hp + 8 + b.size) m)
      (setSize hp (b.size + (c.size + 8)) m) := by
    have hmod : (b.size + (c.size + headerSize)) % sizeMod = b.size + (c.size + 8) :=
      Nat.mod_eq_of_lt (by simp only [headerSize, sizeMod]; omega)
    simp only [takeIn, h.size_eq, hlaid.1, hmod]
    rw [next_setSize R hhp hcb.1]
  have hs32 : b.size + (c.size + 8) < 2 ^ 32 := by omega
  have hnexts : ∀ x, Header R x → next x (takeIn hp (hp + 8 + b.size) m) =
      if x = hp then next (hp + 8 + b.size) m else next x m := by
    intro x hx
    rw [hm, next_setNext R hhp hx (next_lt _ _), next_setSize R hhp hx]
  have hsizes : ∀ x, Header R x → size x (takeIn hp (hp + 8 + b.size) m) =
      if x = hp then b.size + (c.size + 8) else size x m := by
    intro x hx
    rw [hm, size_setNext R hhp hx, size_setSize R hhp hx hs32]
  have hsum : hp + 8 + (b.size + (c.size + 8)) = hp + 8 + b.size + 8 + c.size := by omega
  refine h.edit ?_ (fun d hd => ?_) ?_ (fun x hx hlt => ?_) ⟨?_, ?_, ?_⟩
  · rw [endOf, hsum]
    exact hends
  · rcases List.mem_cons.mp hd with rfl | hd
    · have h₁ := h.dvd
      have h₂ := h.sizes_behind c List.mem_cons_self
      show 8 ∣ b.size + (c.size + 8)
      omega
    · exact h.sizes_behind d (List.mem_cons_of_mem _ hd)
  · rw [hnexts qp hqp, if_neg hne, hlast]
    rfl
  · have hxp := h.before_ne hlt (Nat.le_refl _) (by omega)
    rw [hnexts x hx, hsizes x hx, if_neg hxp, if_neg hxp]
    exact ⟨rfl, fun _ => rfl⟩
  · rw [hsizes hp hhp, if_pos rfl]
  · rw [hnexts hp hhp, if_pos rfl, hnextc, hsum]
    rfl
  · rw [hsum]
    refine hlaid.2.2.congr fun p hp' => ?_
    have hb' := h.behind p (List.mem_cons_of_mem _ hp')
    have hxp : p.1 ≠ hp := by omega
    rw [hnexts _ hb'.1, hsizes _ hb'.1, if_neg hxp, if_neg hxp]
    exact ⟨rfl, rfl⟩

section

variable (h : Spot R m l₁ b l₂ qp hp)

include h

theorem Spot.limit_eq : limit hp m = hp + 8 + b.size := by
  have hlt := h.lt
  rw [limit, h.size_eq]
  exact Nat.mod_eq_of_lt hlt

/-- The block behind a free block is free. -/
theorem Spot.limit_eq_next (hb : b.used = false) :
    limit hp m = next hp m ↔ ∃ c w, l₂ = c :: w ∧ c.used = false := by
  rw [h.limit_eq, h.next_eq, hb, if_neg (by simp), eq_comm]
  exact nextFree_eq_self (by decide) (by omega)

/-- The block before a block is free. -/
theorem Spot.limit_last :
    limit qp m = hp ↔ ∃ u c, l₁ = u ++ [c] ∧ c.used = false := by
  have hq := h.qp_eq
  have hp' := h.hp_eq
  constructor
  · intro hl
    rcases lastFree_cases 8 R.start l₁ with hu | ⟨u, c, v, rfl, hv, hc, hlast⟩
    · rw [lastFree_of_used hu] at hq
      have h₁ := R.heap_fits
      have h₂ := R.apart
      have h₃ := h.start_le
      have h₄ := h.le_end
      rw [← hq, limit, h.laying.sentinel, Nat.mod_eq_of_lt (by simp only [headerSize, sizeMod]; omega)] at hl
      simp only [headerSize] at hl
      omega
    · have hspot := (show Laying R m (u ++ c :: (v ++ b :: l₂)) by
        have := h.laying
        rwa [List.append_assoc, List.cons_append] at this).spot
      rw [hlast] at hq
      subst hq
      rw [hspot.limit_eq, ← hp', endOf_append, endOf] at hl
      cases v with
      | nil => exact ⟨u, c, rfl, hc⟩
      | cons d v =>
        have hle := le_endOf (w := 8) (endOf 8 R.start u + 8 + c.size + 8 + d.size) v
        rw [endOf] at hl
        omega
  · rintro ⟨u, c, rfl, hc⟩
    have hspot := (show Laying R m (u ++ c :: b :: l₂) by
      have := h.laying
      rwa [List.append_assoc] at this).spot
    rw [← hq, lastFree_append, lastFree, hc, ← hp', endOf_snoc]
    exact hspot.limit_eq

end

theorem used_takeIn {q : Nat} (h : Header R hp) : used R (takeIn hp q m) = used R m := by
  rw [takeIn, used_setNext R h, used_setSize R h]

section

variable (h : Spot R m l₁ b l₂ qp hp)

include h

/-- The block behind is taken in if it is free. -/
theorem Spot.mergeNext (hb : b.used = false) (hap : Apart l₂) :
    ∃ d w, Laying R (mergeNext hp m) (l₁ ++ d :: w) ∧ d.used = false ∧ Apart w ∧
      (∀ c ∈ w.head?, c.used = true) ∧
      usedPlaces 8 hp (d :: w) = usedPlaces 8 (hp + 8 + b.size) l₂ ∧
      used R (Seqfit.mergeNext hp m) = used R m := by
  unfold Seqfit.mergeNext
  split
  · rename_i hl
    obtain ⟨c, w, rfl, hc⟩ := (h.limit_eq_next hb).mp hl
    obtain ⟨-, hw, hhead⟩ := apart_middle.mp (show Apart ([] ++ c :: w) from hap)
    rw [← hl, h.limit_eq]
    refine ⟨_, w, h.merge hb hc, rfl, hw, (hhead hc).2, ?_, used_takeIn h.header⟩
    rw [usedPlaces_free rfl, usedPlaces_free hc]
    congr 1
    simp only
    omega
  · rename_i hl
    refine ⟨b, l₂, h.laying, hb, hap, fun c hc => ?_, usedPlaces_free hb, rfl⟩
    cases l₂ with
    | nil => cases hc
    | cons c' w =>
      cases hc
      cases hused : c.used with
      | true => rfl
      | false => exact absurd ((h.limit_eq_next hb).mpr ⟨c, w, rfl, hused⟩) hl

/-- The block is taken into the one before it if that is free. -/
theorem Spot.mergePrev (hb : b.used = false) (hl₁ : Apart l₁) (hl₂ : Apart l₂)
    (hhead : ∀ c ∈ l₂.head?, c.used = true) :
    ∃ l, Laying R (mergePrev qp hp m) l ∧ Apart l ∧
      usedPlaces 8 R.start l = usedPlaces 8 R.start l₁ ++ usedPlaces 8 hp (b :: l₂) ∧
      used R (Seqfit.mergePrev qp hp m) = used R m := by
  unfold Seqfit.mergePrev
  split
  · rename_i hl
    obtain ⟨u, c, rfl, hc⟩ := h.limit_last.mp hl
    have hspot := (show Laying R m (u ++ c :: b :: l₂) by
      have := h.laying
      rwa [List.append_assoc] at this).spot
    have hqp : endOf 8 R.start u = qp := by
      rw [← h.qp_eq, lastFree_append, lastFree, hc]
      rfl
    have hhp : endOf 8 R.start u + 8 + c.size = hp := by rw [← h.hp_eq, endOf_snoc]
    have hmerge := hspot.merge hc hb
    obtain ⟨hu, -, hlast⟩ := apart_middle.mp hl₁
    rw [hhp, hqp] at hmerge
    refine ⟨_, hmerge, apart_middle.mpr ⟨hu, hl₂, fun _ => ⟨(hlast hc).1, hhead⟩⟩, ?_,
      used_takeIn h.header_last⟩
    rw [usedPlaces_append, usedPlaces_append, usedPlaces_free rfl, usedPlaces_free hb, usedPlaces_free hc,
      ← hhp]
    simp only [usedPlaces, place, List.filter_nil, List.append_nil]
    congr 3
    omega
  · rename_i hl
    refine ⟨_, h.laying, apart_middle.mpr ⟨hl₁, hl₂, fun _ => ⟨fun c hc => ?_, hhead⟩⟩, ?_, rfl⟩
    · rcases List.eq_nil_or_concat l₁ with rfl | ⟨u, d, rfl⟩
      · cases hc
      · rw [List.concat_eq_append, List.getLast?_concat] at hc
        cases hc
        cases hused : c.used with
        | true => rfl
        | false => exact absurd (h.limit_last.mpr ⟨u, c, by rw [List.concat_eq_append], hused⟩) hl
    · rw [usedPlaces_append, h.hp_eq]

/-- **Release**: the block is free, and the used blocks are the others. -/
theorem Spot.release (hb : b.used = true) (hap : Apart (l₁ ++ b :: l₂))
    (s : Nat) : ∃ l, Laying R (insertBlock R s qp hp m) l ∧ Apart l ∧
      usedPlaces 8 R.start l = usedPlaces 8 R.start l₁ ++ usedPlaces 8 (hp + 8 + b.size) l₂ ∧
      used R (insertBlock R s qp hp m) = sub (used R m) s := by
  obtain ⟨hl₁, hl₂, -⟩ := apart_middle.mp hap
  have h₁ := (h.insert hb).spot
  rw [h.qp_eq, h.hp_eq] at h₁
  obtain ⟨d, w, hlay, hd, hw, hhead, hplaces, hused₁⟩ := h₁.mergeNext rfl hl₂
  have h₂ := hlay.spot
  rw [h.qp_eq, h.hp_eq] at h₂
  obtain ⟨l, hlay', hap', hplaces', hused₂⟩ := h₂.mergePrev hd hl₁ hw hhead
  have hused : used R (Seqfit.mergePrev qp hp (Seqfit.mergeNext hp (linkBlock qp hp m))) = used R m := by
    rw [hused₂, hused₁, linkBlock, used_setNext R h.header_last, used_setNext R h.header]
  refine ⟨l, hlay'.setUsed _, hap', by rw [hplaces', hplaces], ?_⟩
  show used R (setUsed R (sub (used R (Seqfit.mergePrev qp hp (Seqfit.mergeNext hp (linkBlock qp hp m)))) s) _) = _
  rw [hused]
  exact used_setUsed R (Nat.mod_lt _ (by decide))

end

end

end Isix.Seqfit
