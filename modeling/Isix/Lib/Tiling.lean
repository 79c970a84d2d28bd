import Mathlib.Algebra.GroupWithZero.Nat
import Mathlib.Data.List.Chain

/-!
# Isix.Lib.Tiling

A region cut into blocks that lie side by side.  Each block has a header of `w`
cells and a body; it is used or free.  A list of blocks and the address of the
first one give the addresses of all, so a tiling covers its region by
construction; what an allocator does to a region is a change of the list.
-/

namespace Tiling

structure Block where
  size : Nat
  used : Bool

variable (w : Nat)

/-- The address behind the last block. -/
def endOf (a : Nat) : List Block → Nat
  | [] => a
  | b :: l => endOf (a + w + b.size) l

/-- The blocks with their addresses. -/
def place (a : Nat) : List Block → List (Nat × Block)
  | [] => []
  | b :: l => (a, b) :: place (a + w + b.size) l

/-- The address of the first free block, or `n`. -/
def nextFree (a : Nat) : List Block → Nat → Nat
  | [], n => n
  | b :: l, n => if b.used then nextFree (a + w + b.size) l n else a

/-- The address of the last free block, or `d`. -/
def lastFree (d a : Nat) : List Block → Nat
  | [] => d
  | b :: l => lastFree (if b.used then d else a) (a + w + b.size) l

variable {w} {a d n x : Nat} {b c : Block} {l l₁ l₂ : List Block}

/-! ## addresses -/

theorem endOf_append : endOf w a (l₁ ++ l₂) = endOf w (endOf w a l₁) l₂ := by
  induction l₁ generalizing a with
  | nil => rfl
  | cons b l ih => exact ih

theorem le_endOf (a : Nat) (l : List Block) : a ≤ endOf w a l := by
  induction l generalizing a with
  | nil => exact Nat.le_refl a
  | cons b l ih =>
    have h := ih (a + w + b.size)
    rw [endOf]
    omega

theorem endOf_snoc : endOf w a (l ++ [b]) = endOf w a l + w + b.size := by
  rw [endOf_append]
  rfl

theorem place_append : place w a (l₁ ++ l₂) = place w a l₁ ++ place w (endOf w a l₁) l₂ := by
  induction l₁ generalizing a with
  | nil => rfl
  | cons b l ih => simp [place, endOf, ih]

theorem mem_place : (x, b) ∈ place w a l ↔ ∃ u v, l = u ++ b :: v ∧ x = endOf w a u := by
  induction l generalizing a with
  | nil => simp [place]
  | cons c l ih =>
    rw [place, List.mem_cons, Prod.mk.injEq, ih]
    constructor
    · rintro (⟨rfl, rfl⟩ | ⟨u, v, rfl, rfl⟩)
      · exact ⟨[], l, rfl, rfl⟩
      · exact ⟨c :: u, v, rfl, rfl⟩
    · rintro ⟨u, v, hl, rfl⟩
      cases u with
      | nil =>
        cases hl
        exact .inl ⟨rfl, rfl⟩
      | cons c' u =>
        cases hl
        exact .inr ⟨u, v, rfl, rfl⟩

theorem mem_of_mem_place (h : (x, b) ∈ place w a l) : b ∈ l := by
  obtain ⟨u, v, rfl, -⟩ := mem_place.mp h
  simp

/-- A block lies inside its region. -/
theorem bounds (h : (x, b) ∈ place w a l) : a ≤ x ∧ x + w + b.size ≤ endOf w a l := by
  obtain ⟨u, v, rfl, rfl⟩ := mem_place.mp h
  have h₁ := le_endOf (w := w) a u
  have h₂ := le_endOf (w := w) (endOf w a u + w + b.size) v
  rw [endOf_append]
  exact ⟨h₁, h₂⟩

theorem pairwise_place (a : Nat) (l : List Block) :
    (place w a l).Pairwise fun p q => p.1 + w + p.2.size ≤ q.1 := by
  induction l generalizing a with
  | nil => exact .nil
  | cons b l ih => exact .cons (fun q hq => (bounds hq).1) (ih _)

/-- Every cell of the region is in a block. -/
theorem covered (h : a ≤ x) (h' : x < endOf w a l) :
    ∃ p ∈ place w a l, p.1 ≤ x ∧ x < p.1 + w + p.2.size := by
  induction l generalizing a with
  | nil =>
    rw [endOf] at h'
    omega
  | cons b l ih =>
    by_cases hx : x < a + w + b.size
    · exact ⟨(a, b), List.mem_cons_self, h, hx⟩
    · obtain ⟨p, hp, hpx⟩ := ih (by omega) h'
      exact ⟨p, List.mem_cons_of_mem _ hp, hpx⟩

/-- Two blocks are the same or apart. -/
theorem eq_or_apart {y : Nat} (hx : (x, b) ∈ place w a l) (hy : (y, c) ∈ place w a l) :
    (x = y ∧ b = c) ∨ x + w + b.size ≤ y ∨ y + w + c.size ≤ x := by
  induction l generalizing a with
  | nil => cases hx
  | cons d l ih =>
    rw [place, List.mem_cons, Prod.mk.injEq] at hx hy
    rcases hx with ⟨rfl, rfl⟩ | hx
    · rcases hy with ⟨rfl, rfl⟩ | hy
      · exact .inl ⟨rfl, rfl⟩
      · exact .inr (.inl (bounds hy).1)
    · rcases hy with ⟨rfl, rfl⟩ | hy
      · exact .inr (.inr (bounds hx).1)
      · exact ih hx hy

/-! ## free blocks -/

theorem nextFree_append :
    nextFree w a (l₁ ++ l₂) n = nextFree w a l₁ (nextFree w (endOf w a l₁) l₂ n) := by
  induction l₁ generalizing a with
  | nil => rfl
  | cons b l ih => simp [nextFree, endOf, ih]

theorem lastFree_append :
    lastFree w d a (l₁ ++ l₂) = lastFree w (lastFree w d a l₁) (endOf w a l₁) l₂ := by
  induction l₁ generalizing a d with
  | nil => rfl
  | cons b l ih => simp [lastFree, endOf, ih]

theorem nextFree_of_used (h : ∀ b ∈ l, b.used = true) : nextFree w a l n = n := by
  induction l generalizing a with
  | nil => rfl
  | cons b l ih =>
    rw [nextFree, if_pos (h b List.mem_cons_self)]
    exact ih fun c hc => h c (List.mem_cons_of_mem _ hc)

theorem lastFree_of_used (h : ∀ b ∈ l, b.used = true) : lastFree w d a l = d := by
  induction l generalizing a with
  | nil => rfl
  | cons b l ih =>
    rw [lastFree, if_pos (h b List.mem_cons_self)]
    exact ih fun c hc => h c (List.mem_cons_of_mem _ hc)

/-- The free blocks of a list: none, or there is a first one. -/
theorem nextFree_cases (w a : Nat) (l : List Block) : (∀ b ∈ l, b.used = true) ∨
    ∃ u b v, l = u ++ b :: v ∧ (∀ c ∈ u, c.used = true) ∧ b.used = false ∧
      ∀ n, nextFree w a l n = endOf w a u := by
  induction l generalizing a with
  | nil => exact .inl fun b hb => by cases hb
  | cons b l ih =>
    cases hb : b.used with
    | false =>
      refine .inr ⟨[], b, l, rfl, fun c hc => (by cases hc), hb, fun n => ?_⟩
      rw [nextFree, hb]
      rfl
    | true =>
      rcases ih (a + w + b.size) with h | ⟨u, c, v, rfl, hu, hc, hn⟩
      · exact .inl (List.forall_mem_cons.mpr ⟨hb, h⟩)
      · refine .inr ⟨b :: u, c, v, rfl, List.forall_mem_cons.mpr ⟨hb, hu⟩, hc, fun n => ?_⟩
        rw [nextFree, if_pos hb, hn]
        rfl

/-- The free blocks of a list: none, or there is a last one. -/
theorem lastFree_cases (w a : Nat) (l : List Block) : (∀ b ∈ l, b.used = true) ∨
    ∃ u b v, l = u ++ b :: v ∧ (∀ c ∈ v, c.used = true) ∧ b.used = false ∧
      ∀ d, lastFree w d a l = endOf w a u := by
  induction l generalizing a with
  | nil => exact .inl fun b hb => by cases hb
  | cons b l ih =>
    rcases ih (a + w + b.size) with h | ⟨u, c, v, rfl, hv, hc, hn⟩
    · cases hb : b.used with
      | false =>
        refine .inr ⟨[], b, l, rfl, h, hb, fun d => ?_⟩
        rw [lastFree, lastFree_of_used h, hb]
        rfl
      | true => exact .inl (List.forall_mem_cons.mpr ⟨hb, h⟩)
    · exact .inr ⟨b :: u, c, v, rfl, hv, hc, fun d => by rw [lastFree, hn]; rfl⟩

/-- Free blocks are not side by side. -/
def Apart (l : List Block) : Prop := l.IsChain fun b c => b.used = true ∨ c.used = true

/-- A region without used blocks is one free block. -/
theorem Apart.eq_singleton (h : Apart l) (hf : ∀ b ∈ l, b.used = false) (hne : l ≠ []) :
    ∃ b, l = [b] := by
  match l, hne with
  | [b], _ => exact ⟨b, rfl⟩
  | b :: c :: l, _ =>
    have hbc := (List.isChain_cons_cons.mp h).1
    rw [hf b (by simp), hf c (by simp)] at hbc
    rcases hbc with hbc | hbc <;> cases hbc

/-- A block between others. -/
theorem apart_middle : Apart (l₁ ++ b :: l₂) ↔ Apart l₁ ∧ Apart l₂ ∧
    (b.used = false → (∀ c ∈ l₁.getLast?, c.used = true) ∧ ∀ c ∈ l₂.head?, c.used = true) := by
  unfold Apart
  rw [List.isChain_append, List.isChain_cons]
  cases hb : b.used with
  | true => simp [hb]
  | false =>
    simp [hb]
    tauto

/-- No free block ends where another begins. -/
theorem Apart.not_adjacent {y : Nat} (h : Apart l) (hw : 0 < w) (hx : (x, b) ∈ place w a l)
    (hy : (y, c) ∈ place w a l) (hb : b.used = false) (hc : c.used = false) : x + w + b.size ≠ y := by
  intro he
  obtain ⟨u, v, rfl, rfl⟩ := mem_place.mp hx
  rw [place_append, List.mem_append, place, List.mem_cons, Prod.mk.injEq] at hy
  rcases hy with hy | ⟨hy, -⟩ | hy
  · have := bounds hy
    omega
  · omega
  · -- the second one is the block right behind the first
    cases v with
    | nil => cases hy
    | cons d v =>
      have hd := ((apart_middle.mp h).2.2 hb).2 d (by simp)
      rw [place, List.mem_cons, Prod.mk.injEq] at hy
      rcases hy with ⟨-, rfl⟩ | hy
      · rw [hc] at hd
        cases hd
      · have := bounds hy
        omega

/-- The first block is free. -/
theorem nextFree_eq_self (hw : 0 < w) (h : n < a) :
    nextFree w a l n = a ↔ ∃ c v, l = c :: v ∧ c.used = false := by
  rcases nextFree_cases w a l with hall | ⟨u, b, v, rfl, hu, hb, hn⟩
  · rw [nextFree_of_used hall]
    constructor
    · intro he
      omega
    · rintro ⟨c, v, rfl, hc⟩
      rw [hall c List.mem_cons_self] at hc
      cases hc
  · rw [hn]
    cases u with
    | nil => exact ⟨fun _ => ⟨b, v, rfl, hb⟩, fun _ => rfl⟩
    | cons c u =>
      have hle := le_endOf (w := w) (a + w + c.size) u
      constructor
      · intro he
        rw [endOf] at he
        omega
      · rintro ⟨c', v', hc, hused⟩
        cases hc
        rw [hu c List.mem_cons_self] at hused
        cases hused

/-- The used blocks with their addresses. -/
def usedPlaces (w a : Nat) (l : List Block) : List (Nat × Block) := (place w a l).filter (·.2.used)

theorem usedPlaces_append :
    usedPlaces w a (l₁ ++ l₂) = usedPlaces w a l₁ ++ usedPlaces w (endOf w a l₁) l₂ := by
  simp [usedPlaces, place_append]

theorem usedPlaces_used (hb : b.used = true) :
    usedPlaces w a (b :: l) = (a, b) :: usedPlaces w (a + w + b.size) l := by
  simp [usedPlaces, place, hb]

theorem usedPlaces_free (hb : b.used = false) :
    usedPlaces w a (b :: l) = usedPlaces w (a + w + b.size) l := by
  simp [usedPlaces, place, hb]

/-- The bodies of the used blocks fit into the region. -/
theorem sum_usedPlaces_le (a : Nat) (l : List Block) :
    a + ((usedPlaces w a l).map (·.2.size)).sum ≤ endOf w a l := by
  induction l generalizing a with
  | nil => simp [usedPlaces, place, endOf]
  | cons b l ih =>
    have h := ih (a + w + b.size)
    rw [endOf]
    cases hb : b.used with
    | true =>
      simp only [usedPlaces_used hb, List.map_cons, List.sum_cons]
      omega
    | false =>
      rw [usedPlaces_free hb]
      omega

theorem mem_usedPlaces : (x, b) ∈ usedPlaces w a l ↔ (x, b) ∈ place w a l ∧ b.used = true := by
  simp [usedPlaces, List.mem_filter]

/-- The free blocks with their addresses. -/
def freePlaces (w a : Nat) (l : List Block) : List (Nat × Block) := (place w a l).filter (!·.2.used)

theorem mem_freePlaces : (x, b) ∈ freePlaces w a l ↔ (x, b) ∈ place w a l ∧ b.used = false := by
  simp [freePlaces, List.mem_filter]

theorem perm_place : (freePlaces w a l ++ usedPlaces w a l).Perm (place w a l) := by
  have h := List.filter_append_perm (fun p : Nat × Block => !p.2.used) (place w a l)
  simpa [freePlaces, usedPlaces] using h

end Tiling
