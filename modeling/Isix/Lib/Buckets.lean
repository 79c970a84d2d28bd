import Isix.Lib.Linked
import Mathlib.Data.List.Perm.Subperm
import Mathlib.Data.List.Range

/-!
# Isix.Lib.Buckets

A priority queue made of first-in first-out buckets, over a fixed pool of
bucket records.  A record is in use (`active`, sorted by priority) exactly
while its bucket is not empty; the others wait on `free`.  A smaller number
is a better priority.

`WF n` is the invariant of a queue for the priorities `0 .. n` with `n + 1`
records.  `add_spec` says that the pool never runs out, `WF.remove` that a
record whose last item leaves goes back to the pool, and `bucket` is the view
in which the records disappear: the queue is a map from priorities to lists,
`add` appends to one list and `remove` erases from one.
-/

namespace Buckets

open Function (update update_self)
open Intrusive (insertBefore)

/-- `active` and `free` hold the records, `prio` and `items` their content. -/
structure Queue (ι : Type) where
  active : List Nat
  free : List Nat
  prio : Nat → Nat
  items : Nat → List ι

variable {ι : Type}

namespace Queue

/-! ## operations -/

/-- Put `x` at the end of the bucket of the record `e`. -/
def append (e : Nat) (x : ι) (q : Queue ι) : Queue ι :=
  { q with items := update q.items e (q.items e ++ [x]) }

/-- Take a record from the pool for the priority `p`, with `x` in it. -/
def alloc (p : Nat) (x : ι) (q : Queue ι) : Option (Nat × Queue ι) :=
  match q.free with
  | [] => none
  | e :: rest =>
    some (e, { active := insertBefore (fun a => decide (p < q.prio a)) e q.active
               free := rest
               prio := update q.prio e p
               items := update q.items e [x] })

/-- Append `x` to the bucket of priority `p`, with the record used.  The scan
stops at the first record that is not better than `p`. -/
def add (p : Nat) (x : ι) (q : Queue ι) : Option (Nat × Queue ι) :=
  match q.active.find? fun e => decide (p ≤ q.prio e) with
  | some e => if q.prio e = p then some (e, q.append e x) else q.alloc p x
  | none => q.alloc p x

/-- Return the record `e` to the pool when its bucket became empty. -/
def release (e : Nat) (q : Queue ι) : Queue ι :=
  if (q.items e).isEmpty then
    { q with active := q.active.erase e, free := q.free ++ [e] }
  else q

variable [DecidableEq ι]

def erase (e : Nat) (x : ι) (q : Queue ι) : Queue ι :=
  { q with items := update q.items e ((q.items e).erase x) }

/-- The items of priority `p`. -/
def bucket (q : Queue ι) (p : Nat) : List ι :=
  match q.active.find? fun e => decide (q.prio e = p) with
  | some e => q.items e
  | none => []

end Queue

/-! ## the invariant -/

/-- A queue for the priorities `0 .. n`. -/
structure WF (n : Nat) (q : Queue ι) : Prop where
  sorted : q.active.Pairwise fun a b => q.prio a < q.prio b
  pool : (q.active ++ q.free).Perm (List.range (n + 1))
  le : ∀ e ∈ q.active, q.prio e ≤ n
  nonempty : ∀ e ∈ q.active, q.items e ≠ []
  unused : ∀ e, e ∉ q.active → q.items e = []

namespace WF

variable {n p e : Nat} {x : ι} {q : Queue ι}

section

variable (h : WF n q)

include h

theorem nodup : (q.active ++ q.free).Nodup :=
  h.pool.nodup_iff.mpr List.nodup_range

theorem active_nodup : q.active.Nodup := (List.nodup_append.mp h.nodup).1

/-- A record with an item is in use. -/
theorem mem_active (hx : x ∈ q.items e) : e ∈ q.active := by
  by_contra he
  have := h.unused e he
  simp [this] at hx

theorem nodup_prio : (q.active.map q.prio).Nodup := by
  rw [List.nodup_iff_pairwise_ne, List.pairwise_map]
  exact h.sorted.imp fun hlt => by omega

/-- Two records in use have different priorities. -/
theorem prio_inj {a b : Nat} (ha : a ∈ q.active) (hb : b ∈ q.active)
    (hab : q.prio a = q.prio b) : a = b :=
  List.inj_on_of_nodup_map h.nodup_prio ha hb hab

/-- The scan of `add` finds the record of the priority if there is one. -/
theorem prio_ne_of_find {e a : Nat}
    (he : (q.active.find? fun e => decide (p ≤ q.prio e)) = some e) (hp : q.prio e ≠ p)
    (ha : a ∈ q.active) : q.prio a ≠ p := by
  obtain ⟨hpe, l₁, l₂, hl, hl₁⟩ := List.find?_eq_some_iff_append.mp he
  have hs := h.sorted
  rw [hl, List.pairwise_append, List.pairwise_cons] at hs
  have hpe : p ≤ q.prio e := by simpa using hpe
  rw [hl, List.mem_append, List.mem_cons] at ha
  rcases ha with ha | rfl | ha
  · have := hl₁ a ha
    simp at this
    omega
  · exact hp
  · have := hs.2.1.1 a ha
    omega

/-- Not all records are in use while a priority has no record. -/
theorem free_ne_nil (hp : p ≤ n) (hne : ∀ e ∈ q.active, q.prio e ≠ p) :
    q.free ≠ [] := by
  intro hf
  have hlen : q.active.length = n + 1 := by
    have := h.pool.length_eq
    simpa [hf] using this
  have hnd : (p :: q.active.map q.prio).Nodup := by
    rw [List.nodup_cons]
    constructor
    · simpa using hne
    · exact h.nodup_prio
  have hsub : (p :: q.active.map q.prio) ⊆ List.range (n + 1) := by
    intro a ha
    rw [List.mem_range]
    rcases List.mem_cons.mp ha with rfl | ha
    · omega
    · obtain ⟨e, he, rfl⟩ := List.mem_map.mp ha
      have := h.le e he
      omega
  have := (List.subperm_of_subset hnd hsub).length_le
  simp only [List.length_cons, List.length_map, List.length_range] at this
  omega

end

end WF

/-! ## adding an item -/

/-- `q'` is `q` with `x` added to the bucket of `p`, on the record `e`. -/
structure Added (n p : Nat) (x : ι) (e : Nat) (q q' : Queue ι) : Prop where
  wf : WF n q'
  prio_self : q'.prio e = p
  items : q'.items = update q.items e (q.items e ++ [x])
  prio_of_mem : ∀ a ∈ q.active, q'.prio a = q.prio a
  mem_active : ∀ a, a ∈ q'.active ↔ a = e ∨ a ∈ q.active

variable {n p e : Nat} {x : ι} {q : Queue ι}

theorem added_append (h : WF n q) (he : e ∈ q.active) (hp : q.prio e = p) :
    Added n p x e q (q.append e x) := by
  refine ⟨⟨h.sorted, h.pool, h.le, ?_, ?_⟩, hp, rfl, fun _ _ => rfl, ?_⟩
  · intro a ha
    by_cases hae : a = e
    · subst hae
      simp [Queue.append]
    · simpa [Queue.append, hae] using h.nonempty a ha
  · intro a ha
    have hae : a ≠ e := by
      rintro rfl
      exact ha he
    simpa [Queue.append, hae] using h.unused a ha
  · intro a
    constructor
    · exact .inr
    · rintro (rfl | ha)
      · exact he
      · exact ha

theorem alloc_spec (h : WF n q) (hp : p ≤ n) (hne : ∀ a ∈ q.active, q.prio a ≠ p) :
    ∃ e q', q.alloc p x = some (e, q') ∧ Added n p x e q q' := by
  unfold Queue.alloc
  cases hf : q.free with
  | nil => exact absurd hf (h.free_ne_nil hp hne)
  | cons e rest =>
    have hnd := h.nodup
    rw [hf, List.nodup_append, List.nodup_cons] at hnd
    have he : e ∉ q.active := fun hmem => hnd.2.2 e hmem e List.mem_cons_self rfl
    have hane : ∀ a ∈ q.active, a ≠ e := by
      rintro a ha rfl
      exact he ha
    have hprio : ∀ a ∈ q.active, update q.prio e p a = q.prio a := by
      intro a ha
      rw [Function.update_of_ne (hane a ha)]
    refine ⟨e, _, rfl, ⟨?_, ?_, ?_, ?_, ?_⟩, by simp, ?_, hprio, by simp⟩
    · -- the new record goes where its priority belongs
      have hs : q.active.Pairwise fun a b => update q.prio e p a < update q.prio e p b :=
        h.sorted.imp_of_mem fun ha hb hab => by rwa [hprio _ ha, hprio _ hb]
      have hins : insertBefore (fun a => decide (p < q.prio a)) e q.active =
          insertBefore (fun a => decide (update q.prio e p e < update q.prio e p a)) e q.active :=
        Intrusive.insertBefore_congr e fun a ha => by rw [hprio a ha, update_self]
      rw [hins]
      refine Intrusive.pairwise_lt_insertBefore hs fun a ha => ?_
      show update q.prio e p a ≠ update q.prio e p e
      rw [hprio a ha, update_self]
      exact hne a ha
    · have := h.pool
      rw [hf] at this
      exact ((Intrusive.insertBefore_perm _ e q.active).append_right rest).trans
        (List.perm_middle.symm.trans this)
    · intro a ha
      rcases Intrusive.mem_insertBefore.mp ha with rfl | ha
      · simpa using hp
      · show update q.prio e p a ≤ n
        rw [hprio a ha]
        exact h.le a ha
    · intro a ha
      rcases Intrusive.mem_insertBefore.mp ha with rfl | ha
      · simp
      · simpa [hane a ha] using h.nonempty a ha
    · intro a ha
      have hae : a ≠ e := by
        rintro rfl
        exact ha (Intrusive.mem_insertBefore.mpr (.inl rfl))
      have ha' : a ∉ q.active := fun hmem => ha (Intrusive.mem_insertBefore.mpr (.inr hmem))
      simpa [hae] using h.unused a ha'
    · rw [h.unused e he, List.nil_append]

/-- **Adding never fails**: the pool has a record for every priority. -/
theorem add_spec (h : WF n q) (hp : p ≤ n) :
    ∃ e q', q.add p x = some (e, q') ∧ Added n p x e q q' := by
  unfold Queue.add
  cases hfind : q.active.find? fun e => decide (p ≤ q.prio e) with
  | none =>
    have hne : ∀ a ∈ q.active, q.prio a ≠ p := by
      intro a ha hpa
      have := List.find?_eq_none.mp hfind a ha
      simp [hpa] at this
    exact alloc_spec h hp hne
  | some e =>
    by_cases hpe : q.prio e = p
    · simp only [if_pos hpe]
      exact ⟨e, _, rfl, added_append h (List.mem_of_find?_eq_some hfind) hpe⟩
    · simp only [if_neg hpe]
      exact alloc_spec h hp fun a ha => h.prio_ne_of_find hfind hpe ha

/-! ## the queue as a map from priorities to lists -/

theorem bucket_of_mem (h : WF n q) (he : e ∈ q.active) : q.bucket (q.prio e) = q.items e := by
  unfold Queue.bucket
  cases hf : q.active.find? fun a => decide (q.prio a = q.prio e) with
  | none =>
    have := List.find?_eq_none.mp hf e he
    simp at this
  | some a =>
    have hp : q.prio a = q.prio e := by simpa using List.find?_some hf
    have hae := h.prio_inj (List.mem_of_find?_eq_some hf) he hp
    simp only [hae]

theorem mem_bucket (hx : x ∈ q.bucket p) : ∃ e ∈ q.active, q.prio e = p ∧ x ∈ q.items e := by
  unfold Queue.bucket at hx
  cases hf : q.active.find? fun a => decide (q.prio a = p) with
  | none =>
    rw [hf] at hx
    cases hx
  | some e =>
    rw [hf] at hx
    exact ⟨e, List.mem_of_find?_eq_some hf, by simpa using List.find?_some hf, hx⟩

theorem bucket_eq_nil (hne : ∀ a ∈ q.active, q.prio a ≠ p) : q.bucket p = [] := by
  unfold Queue.bucket
  cases hf : q.active.find? fun a => decide (q.prio a = p) with
  | none => rfl
  | some a =>
    have hp : q.prio a = p := by simpa using List.find?_some hf
    exact absurd hp (hne a (List.mem_of_find?_eq_some hf))

/-- The first record has the best priority of all records in use. -/
theorem WF.prio_head_le (h : WF n q) {rest : List Nat} (ha : q.active = e :: rest) {a : Nat}
    (haq : a ∈ q.active) : q.prio e ≤ q.prio a := by
  have hs := h.sorted
  rw [ha, List.pairwise_cons] at hs
  rw [ha] at haq
  rcases List.mem_cons.mp haq with rfl | hmem
  · omega
  · have := hs.1 a hmem
    omega

/-! ## removing an item -/

@[simp] theorem items_release (e : Nat) (q : Queue ι) : (q.release e).items = q.items := by
  unfold Queue.release
  split <;> rfl

@[simp] theorem prio_release (e : Nat) (q : Queue ι) : (q.release e).prio = q.prio := by
  unfold Queue.release
  split <;> rfl

variable [DecidableEq ι]

/-- The records in use after the last step of a removal. -/
theorem mem_active_release (h : WF n q) {a : Nat} :
    a ∈ ((q.erase e x).release e).active ↔ a ∈ q.active ∧ (a = e → (q.items e).erase x ≠ []) := by
  unfold Queue.release
  by_cases hemp : (q.items e).erase x = []
  · simp [Queue.erase, hemp, h.active_nodup.mem_erase_iff, and_comm]
  · simp [Queue.erase, hemp]

/-- Removing an item returns an emptied record to the pool. -/
theorem WF.remove (h : WF n q) (hx : x ∈ q.items e) : WF n ((q.erase e x).release e) := by
  have he : e ∈ q.active := h.mem_active hx
  refine ⟨?_, ?_, ?_, ?_, ?_⟩
  · unfold Queue.release
    split
    · exact h.sorted.sublist List.erase_sublist
    · exact h.sorted
  · unfold Queue.release
    split
    · have hperm : (q.active.erase e ++ (q.free ++ [e])).Perm (q.active ++ q.free) := by
        have h₁ : (q.active.erase e ++ (q.free ++ [e])).Perm (e :: (q.active.erase e ++ q.free)) := by
          rw [← List.append_assoc]
          exact List.perm_append_singleton _ _
        have h₂ : (e :: q.active.erase e).Perm q.active := (List.perm_cons_erase he).symm
        exact h₁.trans (h₂.append_right q.free)
      exact hperm.trans h.pool
    · exact h.pool
  · intro a ha
    rw [prio_release]
    exact h.le a ((mem_active_release h).mp ha).1
  · intro a ha
    obtain ⟨haq, hne⟩ := (mem_active_release h).mp ha
    by_cases hae : a = e
    · subst hae
      simpa [Queue.erase] using hne rfl
    · simpa [Queue.erase, hae] using h.nonempty a haq
  · intro a ha
    rw [items_release]
    by_cases hae : a = e
    · subst hae
      have : ¬(a = a → (q.items a).erase x ≠ []) := fun hc => ha ((mem_active_release h).mpr ⟨he, hc⟩)
      have hnil : (q.items a).erase x = [] := by simpa only [forall_const, ne_eq, not_not] using this
      simpa only [Queue.erase, update_self] using hnil
    · have haq : a ∉ q.active := fun hmem =>
        ha ((mem_active_release h).mpr ⟨hmem, fun hc => absurd hc hae⟩)
      simpa [Queue.erase, hae] using h.unused a haq

/-- Moving an item to the end of its bucket. -/
theorem WF.rotate (h : WF n q) (hx : x ∈ q.items e) : WF n ((q.erase e x).append e x) := by
  have he : e ∈ q.active := h.mem_active hx
  refine ⟨h.sorted, h.pool, h.le, ?_, ?_⟩
  · intro a ha
    by_cases hae : a = e
    · subst hae
      simp [Queue.append, Queue.erase]
    · simpa [Queue.append, Queue.erase, hae] using h.nonempty a ha
  · intro a ha
    have hae : a ≠ e := by
      rintro rfl
      exact ha he
    simpa [Queue.append, Queue.erase, hae] using h.unused a ha

/-- An item that goes behind the others of its bucket. -/
theorem bucket_rotate (h : WF n q) (hx : x ∈ q.items e) (r : Nat) :
    ((q.erase e x).append e x).bucket r =
      if r = q.prio e then (q.bucket r).erase x ++ [x] else q.bucket r := by
  have he : e ∈ q.active := h.mem_active hx
  have hw := h.rotate hx
  by_cases hr : r = q.prio e
  · subst hr
    rw [if_pos rfl, bucket_of_mem h he]
    have hb := bucket_of_mem hw he
    simpa [Queue.append, Queue.erase] using hb
  · rw [if_neg hr]
    by_cases hex : ∃ a ∈ q.active, q.prio a = r
    · obtain ⟨a, ha, rfl⟩ := hex
      have hae : a ≠ e := by
        rintro rfl
        exact hr rfl
      have hb := bucket_of_mem hw ha
      rw [bucket_of_mem h ha]
      simpa [Queue.append, Queue.erase, hae] using hb
    · have hne : ∀ a ∈ q.active, q.prio a ≠ r := fun a ha hp => hex ⟨a, ha, hp⟩
      rw [bucket_eq_nil hne]
      exact bucket_eq_nil hne

end Buckets
