import Isix.Lib.Memory
import Mathlib.Data.List.Chain
import Mathlib.Data.List.Nodup

/-!
# Isix.Lib.DList

Circular doubly linked lists in byte memory.  A node is two pointers of `n`
bytes, the next node and the previous one, and a list is a ring of nodes that
begins and ends at its head.

`Ring n m h l` says that the memory `m` holds the ring of the head `h` through
the nodes `l`.  The rules say how linking a node in at the end and unlinking the
first one change `l`, as long as the nodes do not overlap (`Placed`), and that a
ring depends on the bytes of its nodes only.
-/

namespace DList

open Memory (Mem load store load_store_self load_store_disjoint load_congr)

/-! ## links -/

def next (n : Nat) (m : Mem) (a : Nat) : Nat := load n a m

def prev (n : Nat) (m : Mem) (a : Nat) : Nat := load n (a + n) m

def setNext (n a v : Nat) (m : Mem) : Mem := store n a v m

def setPrev (n a v : Nat) (m : Mem) : Mem := store n (a + n) v m

/-- Link `e` in between `a` and `b`. -/
def insertBetween (n a b e : Nat) (m : Mem) : Mem :=
  setNext n e b (setPrev n e a (setNext n a e (setPrev n b e m)))

/-- Link `e` in at the end of the list of `h`. -/
def insertEnd (n h e : Nat) (m : Mem) : Mem :=
  let a := prev n m h
  insertBetween n a (next n m a) e m

/-- Unlink `e`. -/
def unlink (n e : Nat) (m : Mem) : Mem :=
  let m := setNext n (prev n m e) (next n m e) m
  let m := setPrev n (next n m e) (prev n m e) m
  setPrev n e 0 (setNext n e 0 m)

variable {n a b e h v x : Nat} {m m' : Mem} {l : List Nat}

/-- Two nodes do not overlap. -/
def Apart (n a b : Nat) : Prop := a + 2 * n ≤ b ∨ b + 2 * n ≤ a

instance : Std.Symm (Apart n) := ⟨fun _ _ h => h.symm⟩

theorem next_setNext (hv : v < 256 ^ n) (hab : a ≠ b → Apart n a b) :
    next n (setNext n b v m) a = if a = b then v else next n m a := by
  unfold next setNext
  split
  · rename_i h
    rw [h, load_store_self, Nat.mod_eq_of_lt hv]
  · rename_i h
    have := hab h
    unfold Apart at this
    exact load_store_disjoint (by omega)

theorem prev_setPrev (hv : v < 256 ^ n) (hab : a ≠ b → Apart n a b) :
    prev n (setPrev n b v m) a = if a = b then v else prev n m a := by
  unfold prev setPrev
  split
  · rename_i h
    rw [h, load_store_self, Nat.mod_eq_of_lt hv]
  · rename_i h
    have := hab h
    unfold Apart at this
    exact load_store_disjoint (by omega)

theorem next_setPrev (hab : a ≠ b → Apart n a b) : next n (setPrev n b v m) a = next n m a := by
  apply load_store_disjoint
  by_cases h : a = b
  · omega
  · have := hab h
    unfold Apart at this
    omega

theorem prev_setNext (hab : a ≠ b → Apart n a b) : prev n (setNext n b v m) a = prev n m a := by
  apply load_store_disjoint
  by_cases h : a = b
  · omega
  · have := hab h
    unfold Apart at this
    omega

/-! ## places -/

/-- The nodes `l` do not overlap, and their addresses fit a pointer. -/
structure Placed (n : Nat) (l : List Nat) : Prop where
  fits : ∀ a ∈ l, a < 256 ^ n
  apart : l.Pairwise (Apart n)

theorem Placed.of_ne (hp : Placed n l) (ha : a ∈ l) (hb : b ∈ l) (hab : a ≠ b) : Apart n a b :=
  hp.apart.forall ha hb hab

theorem Placed.nodup (hn : 0 < n) (hp : Placed n l) : l.Nodup := by
  refine hp.apart.imp ?_
  rintro a b h rfl
  unfold Apart at h
  omega

/-! ## rings -/

def Link (n : Nat) (m : Mem) (a b : Nat) : Prop := next n m a = b ∧ prev n m b = a

/-- The list of `h` is `l`. -/
def Ring (n : Nat) (m : Mem) (h : Nat) (l : List Nat) : Prop := (h :: l ++ [h]).IsChain (Link n m)

/-- A chain is carried over to a relation that agrees from any but its last to any but its first. -/
theorem isChain_transport {R R' : Nat → Nat → Prop} (hc : l.IsChain R)
    (himp : ∀ a ∈ l.dropLast, ∀ b ∈ l.tail, R a b → R' a b) : l.IsChain R' := by
  induction l with
  | nil => exact List.IsChain.nil
  | cons x l ih =>
    cases l with
    | nil => exact List.IsChain.singleton x
    | cons y l =>
      rw [List.isChain_cons_cons] at hc ⊢
      refine ⟨himp x (by simp) y (by simp) hc.1, ih hc.2 fun a ha b hb => ?_⟩
      exact himp a (List.mem_cons_of_mem x ha) b (List.mem_cons_of_mem y hb)

theorem Ring.next_eq (hr : Ring n m h l) : next n m h = (l ++ [h]).head (by simp) := by
  cases l with
  | nil => exact (List.isChain_cons_cons.mp hr).1.1
  | cons x l => exact (List.isChain_cons_cons.mp hr).1.1

theorem Ring.next_eq_iff (hr : Ring n m h l) (hl : h ∉ l) : next n m h = h ↔ l = [] := by
  rw [hr.next_eq]
  cases l with
  | nil => simp
  | cons x l => simpa using fun he : x = h => hl (he ▸ List.mem_cons_self)

/-- A ring depends on the bytes of its nodes. -/
theorem Ring.congr (hr : Ring n m h l) (hm : ∀ a ∈ h :: l, ∀ x, a ≤ x → x < a + 2 * n → m' x = m x) :
    Ring n m' h l := by
  refine isChain_transport hr fun a ha b hb hlink => ?_
  have ha' : a ∈ h :: l := by rwa [List.dropLast_concat] at ha
  have hb' : b ∈ h :: l := by simpa [or_comm] using hb
  constructor
  · rw [← hlink.1]
    exact load_congr fun x hx hx' => hm a ha' x hx (by omega)
  · rw [← hlink.2]
    exact load_congr fun x hx hx' => hm b hb' x (by omega) (by omega)

/-- A head linked to itself is the empty ring. -/
theorem ring_nil (hh : h < 256 ^ n) : Ring n (setPrev n h h (setNext n h h m)) h [] := by
  have hself : h ≠ h → Apart n h h := fun hne => absurd rfl hne
  refine List.isChain_pair.mpr ⟨?_, ?_⟩
  · rw [next_setPrev hself, next_setNext hh hself, if_pos rfl]
  · rw [prev_setPrev hh hself, if_pos rfl]

/-- The last node and the head, and what is in front of them. -/
theorem ring_split : ∃ front last, h :: l = front ++ [last] ∧
    ∀ m, Ring n m h l ↔ (h :: l).IsChain (Link n m) ∧ Link n m last h := by
  obtain ⟨front, last, hl⟩ : ∃ front last, h :: l = front ++ [last] :=
    ⟨(h :: l).dropLast, (h :: l).getLast (by simp), (List.dropLast_append_getLast (by simp)).symm⟩
  refine ⟨front, last, hl, fun m => ?_⟩
  unfold Ring
  rw [hl, List.append_assoc, List.singleton_append, List.isChain_split]
  simp

theorem Ring.insertEnd (hn : 0 < n) (hr : Ring n m h l) (hp : Placed n (h :: l ++ [e])) :
    Ring n (insertEnd n h e m) h (l ++ [e]) := by
  obtain ⟨front, last, hl, hsplit⟩ := ring_split
  obtain ⟨hchain, hlast⟩ := (hsplit m).mp hr
  have hnd := hp.nodup hn
  have hmem : ∀ {x}, x ∈ h :: l → x ∈ h :: l ++ [e] := fun hx => List.mem_append_left _ hx
  have hlastMem : last ∈ h :: l := hl ▸ by simp
  have hhead : h ∈ h :: l := List.mem_cons_self
  have he : e ∈ h :: l ++ [e] := by simp
  have hne : ∀ {x}, x ∈ h :: l → x ≠ e := fun hx =>
    (List.nodup_append.mp hnd).2.2 _ hx _ (List.mem_singleton_self e)
  -- what the four stores leave
  have heq : DList.insertEnd n h e m = insertBetween n last h e m := by
    unfold DList.insertEnd
    dsimp only
    rw [hlast.2, hlast.1]
  have hnext : ∀ {x}, x ∈ h :: l ++ [e] → next n (insertBetween n last h e m) x =
      if x = e then h else if x = last then e else next n m x := by
    intro x hx
    unfold insertBetween
    rw [next_setNext (hp.fits h (hmem hhead)) (hp.of_ne hx he), next_setPrev (hp.of_ne hx he),
      next_setNext (hp.fits e he) (hp.of_ne hx (hmem hlastMem)), next_setPrev (hp.of_ne hx (hmem hhead))]
  have hprev : ∀ {x}, x ∈ h :: l ++ [e] → prev n (insertBetween n last h e m) x =
      if x = e then last else if x = h then e else prev n m x := by
    intro x hx
    unfold insertBetween
    rw [prev_setNext (hp.of_ne hx he), prev_setPrev (hp.fits last (hmem hlastMem)) (hp.of_ne hx he),
      prev_setNext (hp.of_ne hx (hmem hlastMem)), prev_setPrev (hp.fits e he) (hp.of_ne hx (hmem hhead))]
  rw [heq]
  unfold Ring
  rw [← List.cons_append, List.append_assoc, hl, List.append_assoc, List.singleton_append, List.isChain_split, ← hl,
    List.singleton_append, List.isChain_cons_cons, List.isChain_pair]
  refine ⟨isChain_transport hchain fun a ha b hb hlink => ?_, ⟨?_, ?_⟩, ?_, ?_⟩
  · have hamem : a ∈ h :: l := List.dropLast_subset _ ha
    have hbmem : b ∈ h :: l := List.mem_of_mem_tail hb
    have halast : a ≠ last := by
      rintro rfl
      rw [hl, List.dropLast_concat] at ha
      have hnd' : (front ++ [a]).Nodup := hl ▸ (List.nodup_append.mp hnd).1
      exact (List.nodup_append.mp hnd').2.2 a ha a (List.mem_singleton_self a) rfl
    have hbhead : b ≠ h := by
      rintro rfl
      exact (List.nodup_cons.mp (List.nodup_append.mp hnd).1).1 hb
    refine ⟨?_, ?_⟩
    · rw [hnext (hmem hamem), if_neg (hne hamem), if_neg halast, hlink.1]
    · rw [hprev (hmem hbmem), if_neg (hne hbmem), if_neg hbhead, hlink.2]
  · rw [hnext (hmem hlastMem), if_neg (hne hlastMem), if_pos rfl]
  · rw [hprev he, if_pos rfl]
  · rw [hnext he, if_pos rfl]
  · rw [hprev (hmem hhead), if_neg (hne hhead), if_pos rfl]

theorem Ring.unlink_first (hn : 0 < n) (hr : Ring n m h (x :: l)) (hp : Placed n (h :: x :: l)) :
    Ring n (unlink n x m) h l := by
  obtain ⟨y, rest, hrest⟩ : ∃ y rest, l ++ [h] = y :: rest := by
    cases l with
    | nil => exact ⟨h, [], rfl⟩
    | cons y l => exact ⟨y, l ++ [h], rfl⟩
  have hnd := hp.nodup hn
  have hchain : (h :: x :: y :: rest).IsChain (Link n m) := by
    have := hr
    unfold Ring at this
    rwa [List.cons_append, List.cons_append, hrest] at this
  obtain ⟨⟨hhx, hxh⟩, hchain⟩ := List.isChain_cons_cons.mp hchain
  obtain ⟨⟨hxy, -⟩, hchain⟩ := List.isChain_cons_cons.mp hchain
  have hmem : ∀ {z}, z ∈ y :: rest → z ∈ h :: x :: l := by
    intro z hz
    rw [← hrest] at hz
    rcases List.mem_append.mp hz with hz | hz
    · exact List.mem_cons_of_mem h (List.mem_cons_of_mem x hz)
    · exact (List.mem_singleton.mp hz) ▸ List.mem_cons_self
  have hhead : h ∈ h :: x :: l := List.mem_cons_self
  have hx : x ∈ h :: x :: l := by simp
  have hy : y ∈ h :: x :: l := hmem List.mem_cons_self
  have hhne : h ≠ x := fun he => (List.nodup_cons.mp hnd).1 (he ▸ List.mem_cons_self)
  have hrestne : ∀ {z}, z ∈ y :: rest → z ≠ x := by
    rintro z hz rfl
    rw [← hrest] at hz
    rcases List.mem_append.mp hz with hz | hz
    · exact (List.nodup_cons.mp (List.nodup_cons.mp hnd).2).1 hz
    · exact hhne (List.mem_singleton.mp hz).symm
  have hpow : (0 : Nat) < 256 ^ n := Nat.pow_pos (by decide)
  -- what the four stores leave
  have heq : unlink n x m = setPrev n x 0 (setNext n x 0 (setPrev n y h (setNext n h y m))) := by
    unfold unlink
    dsimp only
    rw [hxh, hxy, next_setNext (hp.fits y hy) (hp.of_ne hx hhead), if_neg (Ne.symm hhne), hxy,
      prev_setNext (hp.of_ne hx hhead), hxh]
  have hnext : ∀ {z}, z ∈ h :: x :: l → z ≠ x → next n (unlink n x m) z = if z = h then y else next n m z := by
    intro z hz hzx
    rw [heq, next_setPrev (hp.of_ne hz hx), next_setNext hpow (hp.of_ne hz hx), if_neg hzx,
      next_setPrev (hp.of_ne hz hy), next_setNext (hp.fits y hy) (hp.of_ne hz hhead)]
  have hprev : ∀ {z}, z ∈ h :: x :: l → z ≠ x → prev n (unlink n x m) z = if z = y then h else prev n m z := by
    intro z hz hzx
    rw [heq, prev_setPrev hpow (hp.of_ne hz hx), if_neg hzx, prev_setNext (hp.of_ne hz hx),
      prev_setPrev (hp.fits h hhead) (hp.of_ne hz hy), prev_setNext (hp.of_ne hz hhead)]
  unfold Ring
  rw [List.cons_append, hrest, List.isChain_cons_cons]
  refine ⟨⟨?_, ?_⟩, isChain_transport hchain fun a ha b hb hlink => ?_⟩
  · rw [hnext hhead hhne, if_pos rfl]
  · rw [hprev hy (hrestne List.mem_cons_self), if_pos rfl]
  · have hnd' : (y :: rest).Nodup := by
      rw [← hrest]
      refine List.nodup_append.mpr ⟨(List.nodup_cons.mp (List.nodup_cons.mp hnd).2).2, List.nodup_singleton h, ?_⟩
      rintro a ha b hb rfl
      rw [List.mem_singleton.mp hb] at ha
      exact (List.nodup_cons.mp hnd).1 (List.mem_cons_of_mem x ha)
    have hamem := List.dropLast_subset _ ha
    have hbmem : b ∈ y :: rest := List.mem_cons_of_mem y hb
    have hahead : a ≠ h := by
      rintro rfl
      rw [← hrest, List.dropLast_concat] at ha
      exact (List.nodup_cons.mp hnd).1 (List.mem_cons_of_mem x ha)
    have hby : b ≠ y := by
      rintro rfl
      exact (List.nodup_cons.mp hnd').1 hb
    refine ⟨?_, ?_⟩
    · rw [hnext (hmem hamem) (hrestne hamem), if_neg hahead, hlink.1]
    · rw [hprev (hmem hbmem) (hrestne hbmem), if_neg hby, hlink.2]

end DList
