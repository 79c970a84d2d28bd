import Mathlib.Data.List.Sort
import Mathlib.Data.List.Perm.Basic

/-!
# Isix.Lib.Linked

Intrusive lists: every item carries one link, and the link names the list
the item is on.  `lists k` is the content of the list with head `k`,
`home i` the list the link of `i` belongs to (`none`: not linked).
`Linked lists home` says that the two agree — an item is on the list its
link names, once, and on no other list.

The rules below say how unlinking and linking one item keep the agreement,
so a proof about a program over such lists never counts occurrences again.
`insertBefore` is the common insertion loop: walk to the first element with
a property and link the new item in front of it.
-/

namespace Intrusive

open Function (update update_of_ne update_self)

variable {ι κ : Type}

/-! ## the insertion loop -/

/-- Link `x` in front of the first element satisfying `p`, or at the end. -/
def insertBefore (p : ι → Bool) (x : ι) : List ι → List ι
  | [] => [x]
  | y :: ys => if p y then x :: y :: ys else y :: insertBefore p x ys

/-- The element behind `x`, if `x` is on the list and not the last. -/
def next? [DecidableEq ι] (x : ι) : List ι → Option ι
  | [] => none
  | y :: ys => if y = x then ys.head? else next? x ys

variable {l : List ι}

theorem mem_of_next? [DecidableEq ι] {x y : ι} (h : next? x l = some y) : y ∈ l := by
  induction l with
  | nil => cases h
  | cons z zs ih =>
    rw [next?] at h
    split at h
    · exact List.mem_cons_of_mem z (List.mem_of_mem_head? h)
    · exact List.mem_cons_of_mem z (ih h)

theorem insertBefore_split (p : ι → Bool) (x : ι) (l : List ι) :
    ∃ l₁ l₂, l = l₁ ++ l₂ ∧ insertBefore p x l = l₁ ++ x :: l₂ ∧
      (∀ y ∈ l₁, p y = false) ∧ ∀ y ∈ l₂.head?, p y = true := by
  induction l with
  | nil => exact ⟨[], [], rfl, rfl, by simp, by simp⟩
  | cons y ys ih =>
    by_cases hy : p y = true
    · exact ⟨[], y :: ys, rfl, by simp [insertBefore, hy], by simp, by simpa using hy⟩
    · obtain ⟨l₁, l₂, hl, hi, hp, hq⟩ := ih
      refine ⟨y :: l₁, l₂, by simp [hl], by simp [insertBefore, hy, hi], ?_, hq⟩
      intro z hz
      rcases List.mem_cons.mp hz with rfl | hz
      · simpa using hy
      · exact hp z hz

theorem insertBefore_perm (p : ι → Bool) (x : ι) (l : List ι) :
    (insertBefore p x l).Perm (x :: l) := by
  obtain ⟨l₁, l₂, hl, hi, -, -⟩ := insertBefore_split p x l
  rw [hi, hl]
  exact List.perm_middle

@[simp] theorem mem_insertBefore {p : ι → Bool} {x y : ι} :
    y ∈ insertBefore p x l ↔ y = x ∨ y ∈ l := by
  rw [(insertBefore_perm p x l).mem_iff, List.mem_cons]

@[simp] theorem length_insertBefore (p : ι → Bool) (x : ι) (l : List ι) :
    (insertBefore p x l).length = l.length + 1 := by
  rw [(insertBefore_perm p x l).length_eq, List.length_cons]

theorem insertBefore_congr {p q : ι → Bool} (x : ι) (h : ∀ y ∈ l, p y = q y) :
    insertBefore p x l = insertBefore q x l := by
  induction l with
  | nil => rfl
  | cons y ys ih =>
    rw [insertBefore, insertBefore, h y List.mem_cons_self,
      ih fun z hz => h z (List.mem_cons_of_mem y hz)]

/-- Inserting keeps a list in an order that the test agrees with. -/
theorem pairwise_insertBefore_of {R : ι → ι → Prop} {p : ι → Bool} {x : ι} (h : l.Pairwise R)
    (htrans : ∀ y z, R x y → R y z → R x z) (hpos : ∀ y ∈ l, p y = true → R x y)
    (hneg : ∀ y ∈ l, p y = false → R y x) : (insertBefore p x l).Pairwise R := by
  induction l with
  | nil => simp [insertBefore]
  | cons y ys ih =>
    obtain ⟨hy, hys⟩ := List.pairwise_cons.mp h
    cases hp : p y with
    | true =>
      have hxy := hpos y List.mem_cons_self hp
      rw [insertBefore, if_pos hp]
      refine List.pairwise_cons.mpr ⟨fun z hz => ?_, h⟩
      rcases List.mem_cons.mp hz with rfl | hz
      · exact hxy
      · exact htrans y z hxy (hy z hz)
    | false =>
      rw [insertBefore, if_neg (by simp [hp])]
      refine List.pairwise_cons.mpr ⟨fun z hz => ?_, ih hys (fun z hz => hpos z (List.mem_cons_of_mem y hz))
        fun z hz => hneg z (List.mem_cons_of_mem y hz)⟩
      rcases mem_insertBefore.mp hz with rfl | hz
      · exact hneg y List.mem_cons_self hp
      · exact hy z hz

/-- Inserting by key keeps a list sorted by that key. -/
theorem pairwise_insertBefore {f : ι → Nat} {x : ι}
    (h : l.Pairwise fun a b => f a ≤ f b) :
    (insertBefore (fun y => decide (f x < f y)) x l).Pairwise fun a b => f a ≤ f b :=
  pairwise_insertBefore_of h (fun _ _ => Nat.le_trans) (fun _ _ hp => Nat.le_of_lt (of_decide_eq_true hp))
    fun _ _ hp => Nat.not_lt.mp (of_decide_eq_false hp)

/-- Inserting a new key keeps a strictly sorted list strictly sorted. -/
theorem pairwise_lt_insertBefore {f : ι → Nat} {x : ι}
    (h : l.Pairwise fun a b => f a < f b) (hne : ∀ y ∈ l, f y ≠ f x) :
    (insertBefore (fun y => decide (f x < f y)) x l).Pairwise fun a b => f a < f b :=
  pairwise_insertBefore_of h (fun _ _ => Nat.lt_trans) (fun _ _ hp => of_decide_eq_true hp)
    fun y hy hp => Nat.lt_of_le_of_ne (Nat.not_lt.mp (of_decide_eq_false hp)) (hne y hy)

/-! ## lists and links -/

variable [DecidableEq ι] [DecidableEq κ]

/-- Every item is on the list its link names, exactly once, and on no
other. -/
def Linked (lists : κ → List ι) (home : ι → Option κ) : Prop :=
  ∀ k i, (lists k).count i = if home i = some k then 1 else 0

namespace Linked

variable {lists : κ → List ι} {home : ι → Option κ} {i j : ι} {k : κ}

section

variable (h : Linked lists home)

include h

theorem mem_iff : i ∈ lists k ↔ home i = some k := by
  have hc := h k i
  rw [← List.count_pos_iff, hc]
  split <;> simp_all

theorem nodup (k : κ) : (lists k).Nodup := by
  rw [List.nodup_iff_count_le_one]
  intro i
  rw [h k i]
  split <;> omega

/-- Unlinking an item from the list its link names. -/
theorem unlink (hi : home i = some k) :
    Linked (update lists k ((lists k).erase i)) (update home i none) := by
  intro k' j
  have hj := h k' j
  by_cases hk : k' = k
  · subst hk
    rw [update_self]
    by_cases hji : j = i
    · subst hji
      rw [List.count_erase_self, hj, if_pos hi, update_self]
      simp
    · rw [List.count_erase_of_ne hji, hj, update_of_ne hji]
  · rw [update_of_ne hk, hj]
    by_cases hji : j = i
    · subst hji
      rw [update_self, hi]
      simp [Ne.symm hk]
    · rw [update_of_ne hji]

/-- Linking an unlinked item anywhere into a list. -/
theorem link (hi : home i = none)
    (hl : l.Perm (i :: lists k)) :
    Linked (update lists k l) (update home i (some k)) := by
  intro k' j
  have hj := h k' j
  by_cases hk : k' = k
  · subst hk
    rw [update_self, hl.count_eq]
    by_cases hji : j = i
    · subst hji
      rw [List.count_cons_self, hj, update_self, hi]
      simp
    · rw [List.count_cons_of_ne (Ne.symm hji), hj, update_of_ne hji]
  · rw [update_of_ne hk, hj]
    by_cases hji : j = i
    · subst hji
      rw [update_self, hi]
      simp [Ne.symm hk]
    · rw [update_of_ne hji]

/-- Only the links matter: a change of the items that keeps their links
keeps the agreement. -/
theorem congr {home' : ι → Option κ} (he : ∀ i, home' i = home i) :
    Linked lists home' := by
  intro k i
  rw [he i]
  exact h k i

end

end Linked

end Intrusive
