import Isix.Mempool
import Mathlib.Data.Nat.Bitwise

/-!
# Isix.Properties.Mempool

The elements of a pool are either free, and then on the list that is kept in
their own memory, or live.  `Fits` is the geometry: what the tests of
`isix_mempool_create` and the two blocks of `isix_alloc` give.  `Inv` is kept by
every call and by every write of a user to memory they may write.
-/

namespace Isix.Mempool

open Memory (Mem)
open DList (Placed Ring)
open Runs (Run Reached reached)

variable {k elems p : Nat} {mp : Pool} {m : Mem} {s s' : State}

/-! ## geometry -/

theorem ptrSize_pos (k : Nat) : 0 < ptrSize k := Nat.pow_pos (by decide)

/-- What `isix_alloc` guarantees of the two blocks of a pool: they lie in the address space and do not overlap. -/
structure Blocks (k mp mem memSize : Nat) : Prop where
  pool_top : mp + poolSize k < sizeMod k
  mem_top : mem + memSize < sizeMod k
  apart : mp + poolSize k ≤ mem ∨ mem + memSize ≤ mp

/-- The elements fit the memory, and a node fits an element. -/
structure Fits (k elems : Nat) (mp : Pool) : Prop where
  node : nodeSize k ≤ mp.elemSize
  whole : mp.memSize = elems * mp.elemSize
  mem_pos : 0 < mp.mem
  blocks : Blocks k mp.freeElems mp.mem mp.memSize

section

variable (h : Fits k elems mp)

include h

theorem Fits.elem_pos : 0 < mp.elemSize := by
  have := h.node
  have := ptrSize_pos k
  unfold nodeSize at *
  omega

theorem Fits.slots_eq : mp.slots = (List.range elems).map fun e => mp.mem + mp.elemSize * e := by
  unfold Pool.slots
  rw [h.whole, Nat.mul_div_cancel _ h.elem_pos]

theorem Fits.length_slots : mp.slots.length = elems := by
  rw [h.slots_eq, List.length_map, List.length_range]

/-- The address test of `isix_mempool_free` accepts exactly the starts of the elements. -/
theorem Fits.mem_slots :
    p ∈ mp.slots ↔ mp.mem ≤ p ∧ p < mp.mem + mp.memSize ∧ (p - mp.mem) % mp.elemSize = 0 := by
  rw [h.slots_eq, List.mem_map]
  constructor
  · rintro ⟨e, he, rfl⟩
    have hlt : mp.elemSize * e < elems * mp.elemSize := by
      rw [Nat.mul_comm elems]
      exact Nat.mul_lt_mul_of_pos_left (List.mem_range.mp he) h.elem_pos
    refine ⟨Nat.le_add_right _ _, by rw [h.whole]; omega, ?_⟩
    rw [Nat.add_sub_cancel_left, Nat.mul_mod_right]
  · rintro ⟨hle, hlt, hmod⟩
    obtain ⟨e, he⟩ := Nat.dvd_of_mod_eq_zero hmod
    refine ⟨e, List.mem_range.mpr ?_, by omega⟩
    have hlt' : mp.elemSize * e < mp.elemSize * elems := by
      rw [← he, Nat.mul_comm _ elems, ← h.whole]
      omega
    exact Nat.lt_of_mul_lt_mul_left hlt'

/-- An element lies inside the memory of the pool. -/
theorem Fits.inside (hp : p ∈ mp.slots) :
    mp.mem ≤ p ∧ p + mp.elemSize ≤ mp.mem + mp.memSize := by
  rw [h.slots_eq] at hp
  obtain ⟨e, he, rfl⟩ := List.mem_map.mp hp
  have hle : mp.elemSize * (e + 1) ≤ mp.elemSize * elems := Nat.mul_le_mul_left _ (List.mem_range.mp he)
  rw [Nat.mul_succ] at hle
  rw [h.whole, Nat.mul_comm elems]
  omega

/-- Two elements do not overlap. -/
theorem Fits.pairwise : mp.slots.Pairwise fun a b => a + mp.elemSize ≤ b := by
  rw [h.slots_eq, List.pairwise_map]
  refine (List.pairwise_lt_range).imp fun {a b} hab => ?_
  have hle : mp.elemSize * (a + 1) ≤ mp.elemSize * b := Nat.mul_le_mul_left _ hab
  rw [Nat.mul_succ] at hle
  omega

theorem Fits.disjoint {a b : Nat} (ha : a ∈ mp.slots) (hb : b ∈ mp.slots) (hab : a ≠ b) :
    a + mp.elemSize ≤ b ∨ b + mp.elemSize ≤ a := by
  have hsymm : mp.slots.Pairwise fun a b => a + mp.elemSize ≤ b ∨ b + mp.elemSize ≤ a := h.pairwise.imp Or.inl
  have : Std.Symm fun a b => a + mp.elemSize ≤ b ∨ b + mp.elemSize ≤ a := ⟨fun _ _ => Or.symm⟩
  exact hsymm.forall ha hb hab

theorem Fits.nodup : mp.slots.Nodup := by
  refine h.pairwise.imp ?_
  rintro a b hab rfl
  have := h.elem_pos
  omega

/-- The head and any elements are places for nodes. -/
theorem Fits.placed {l : List Nat} (hl : l.Nodup) (hsub : ∀ a ∈ l, a ∈ mp.slots) :
    Placed (ptrSize k) (mp.freeElems :: l) := by
  have hnode := h.node
  obtain ⟨hpool, hmem, hhead⟩ := h.blocks
  unfold sizeMod poolSize nodeSize at *
  refine ⟨fun a ha => ?_, List.pairwise_cons.mpr ⟨fun a ha => ?_, ?_⟩⟩
  · rcases List.mem_cons.mp ha with rfl | ha
    · omega
    · have := h.inside (hsub a ha)
      omega
  · have := h.inside (hsub a ha)
    unfold DList.Apart
    omega
  · refine hl.pairwise_of_forall_ne fun a ha b hb hab => ?_
    have := h.disjoint (hsub a ha) (hsub b hb) hab
    unfold DList.Apart
    omega

end

/-! ## creation -/

/-- A size that was not rounded to zero is rounded up. -/
theorem isixpAlignSize_ge {len : Nat} (hlen : len < sizeMod k) (h0 : isixpAlignSize k len ≠ 0) :
    len ≤ isixpAlignSize k len := by
  have hmask : byteAlignmentSize k - 1 = 2 ^ (k + 1) - 1 := by
    unfold byteAlignmentSize ptrSize
    rw [Nat.pow_succ, Nat.mul_comm]
  have hand : len &&& (byteAlignmentSize k - 1) = len % byteAlignmentSize k := by
    rw [hmask, Nat.and_two_pow_sub_one_eq_mod, byteAlignmentSize, ptrSize, Nat.pow_succ, Nat.mul_comm]
  have hpos : 0 < byteAlignmentSize k := by
    have := ptrSize_pos k
    unfold byteAlignmentSize
    omega
  have hdvd : byteAlignmentSize k ∣ sizeMod k := by
    have hle : k + 1 ≤ 8 * 2 ^ k := by
      have := Nat.lt_two_pow_self (n := k)
      omega
    have hpow : sizeMod k = 2 ^ (8 * 2 ^ k) := by
      unfold sizeMod ptrSize
      rw [show 256 = 2 ^ 8 by decide, ← Nat.pow_mul]
    rw [hpow, byteAlignmentSize, ptrSize, ← Nat.pow_succ']
    exact Nat.pow_dvd_pow 2 hle
  unfold isixpAlignSize at h0 ⊢
  rw [hand] at h0 ⊢
  split
  · rename_i hne
    rw [if_pos hne] at h0
    have hmod := Nat.mod_lt len hpos
    -- the next multiple is at most `SIZE_MAX + 1`, which is one itself
    have hle : len + byteAlignmentSize k - len % byteAlignmentSize k ≤ sizeMod k := by
      obtain ⟨c, hc⟩ := hdvd
      have hdiv := Nat.div_add_mod len (byteAlignmentSize k)
      have hlt : len / byteAlignmentSize k < c := by
        apply Nat.div_lt_of_lt_mul
        rwa [← hc]
      have hmul : byteAlignmentSize k * (len / byteAlignmentSize k + 1) ≤ byteAlignmentSize k * c :=
        Nat.mul_le_mul_left _ hlt
      rw [Nat.mul_succ, ← hc] at hmul
      omega
    rcases Nat.lt_or_eq_of_le hle with hlt | heq
    · rw [Nat.mod_eq_of_lt hlt]
      omega
    · rw [heq, Nat.mod_self] at h0
      exact absurd rfl h0
  · exact Nat.le_refl len

/-- What a pool that was created looks like. -/
structure Created (k elems size mp mem : Nat) (pool : Pool) : Prop where
  head_eq : pool.freeElems = mp
  mem_eq : pool.mem = mem
  mem_pos : 0 < mem
  elemSize : pool.elemSize = isixpAlignSize k size
  node : nodeSize k ≤ pool.elemSize
  /-- the product does not wrap -/
  memSize : pool.memSize = elems * pool.elemSize
  fits : elems * pool.elemSize < sizeMod k

theorem isixMempoolCreate_some {size mpAddr mem : Nat} {pool : Pool} {m' : Mem}
    (h : isixMempoolCreate k elems size mpAddr mem m = some (pool, m')) :
    Created k elems size mpAddr mem pool ∧
      m' = insertLoop k pool elems 0 (DList.setPrev (ptrSize k) mpAddr mpAddr (DList.setNext (ptrSize k) mpAddr mpAddr m)) := by
  unfold isixMempoolCreate at h
  dsimp only at h
  split at h
  · cases h
  rename_i htests
  split at h
  · cases h
  split at h
  · cases h
  rename_i hmem
  obtain ⟨rfl, rfl⟩ := Prod.mk.inj (Option.some.inj h)
  have hpos : 0 < isixpAlignSize k size := by
    have := ptrSize_pos k
    unfold nodeSize at htests
    omega
  have hmod : 0 < sizeMod k := Nat.pow_pos (by decide)
  have hfits : elems * isixpAlignSize k size < sizeMod k := by
    have hle : elems ≤ (sizeMod k - 1) / isixpAlignSize k size := by omega
    have := (Nat.le_div_iff_mul_le hpos).mp hle
    omega
  have hnode : nodeSize k ≤ isixpAlignSize k size := by omega
  exact ⟨⟨rfl, rfl, by omega, rfl, hnode, Nat.mod_eq_of_lt hfits, hfits⟩, rfl⟩

theorem Created.geometry {size mpAddr mem : Nat} {pool : Pool} (h : Created k elems size mpAddr mem pool)
    (hb : Blocks k mpAddr mem (elems * pool.elemSize)) : Fits k elems pool := by
  refine ⟨h.node, h.memSize, by rw [h.mem_eq]; exact h.mem_pos, ?_⟩
  rw [h.head_eq, h.mem_eq, h.memSize]
  exact hb

theorem insertLoop_ring (h : Fits k elems mp) {n e : Nat} (he : e + n = elems)
    (hr : Ring (ptrSize k) m mp.freeElems ((List.range e).map fun e => mp.mem + mp.elemSize * e)) :
    Ring (ptrSize k) (insertLoop k mp n e m) mp.freeElems mp.slots := by
  induction n generalizing e m with
  | zero =>
    rw [h.slots_eq, ← he]
    exact hr
  | succ n ih =>
    have hnext : ∀ l, l = (List.range e).map (fun e => mp.mem + mp.elemSize * e) ++ [mp.mem + mp.elemSize * e] →
        l.Nodup ∧ ∀ a ∈ l, a ∈ mp.slots := by
      rintro l rfl
      have hsplit : (List.range e).map (fun e => mp.mem + mp.elemSize * e) ++ [mp.mem + mp.elemSize * e] =
          (List.range (e + 1)).map fun e => mp.mem + mp.elemSize * e := by
        rw [List.range_succ, List.map_append, List.map_singleton]
      have hsub : List.Sublist ((List.range (e + 1)).map fun e => mp.mem + mp.elemSize * e) mp.slots := by
        rw [h.slots_eq]
        exact (List.range_sublist.mpr (by omega)).map _
      rw [hsplit]
      exact ⟨hsub.nodup h.nodup, fun a ha => hsub.subset ha⟩
    obtain ⟨hnd, hsub⟩ := hnext _ rfl
    rw [insertLoop]
    refine ih (by omega) ?_
    rw [List.range_succ, List.map_append, List.map_singleton]
    exact hr.insertEnd (ptrSize_pos k) (h.placed hnd hsub)

/-! ## the invariant -/

/-- The list in memory and the live elements are the elements, each once. -/
structure Inv (k elems : Nat) (s : State) : Prop where
  fits : Fits k elems s.mp
  partition : ∃ free, Ring (ptrSize k) s.mem s.mp.freeElems free ∧ (free ++ s.live).Perm s.mp.slots

section

variable (h : Fits k elems mp)

include h

theorem Fits.head_not_mem : mp.freeElems ∉ mp.slots := by
  intro hm
  have := h.inside hm
  have := h.blocks.apart
  have := h.elem_pos
  have := ptrSize_pos k
  unfold poolSize at *
  omega

theorem Fits.slot_pos (hp : p ∈ mp.slots) : p ≠ 0 := by
  have := h.inside hp
  have := h.mem_pos
  omega

/-- What `isix_mempool_alloc` does: nothing on an empty list, else it takes the first element. -/
theorem isixMempoolAlloc_spec {free : List Nat} (hr : Ring (ptrSize k) m mp.freeElems free)
    (hsub : ∀ a ∈ free, a ∈ mp.slots) (hnd : free.Nodup) :
    (free = [] ∧ isixMempoolAlloc k (some mp) m = (0, m)) ∨
    ∃ x rest, free = x :: rest ∧ isixMempoolAlloc k (some mp) m = (x, DList.unlink (ptrSize k) x m) ∧
      Ring (ptrSize k) (DList.unlink (ptrSize k) x m) mp.freeElems rest := by
  have hhead : mp.freeElems ∉ free := fun hm => h.head_not_mem (hsub _ hm)
  unfold isixMempoolAlloc
  cases free with
  | nil =>
    left
    dsimp only
    rw [if_pos ((hr.next_eq_iff hhead).mpr rfl)]
    exact ⟨rfl, rfl⟩
  | cons x rest =>
    right
    have hne : DList.next (ptrSize k) m mp.freeElems ≠ mp.freeElems := fun he => by
      cases (hr.next_eq_iff hhead).mp he
    have hx : DList.next (ptrSize k) m mp.freeElems = x := hr.next_eq
    dsimp only
    rw [if_neg hne, hx]
    exact ⟨x, rest, rfl, rfl, hr.unlink_first (ptrSize_pos k) (h.placed hnd hsub)⟩

/-- What `isix_mempool_free` does: it accepts the starts of elements and refuses the rest. -/
theorem isixMempoolFree_spec (p : Nat) (m : Mem) :
    (p ∈ mp.slots ∧ isixMempoolFree k (some mp) p m = (.eok, DList.insertEnd (ptrSize k) mp.freeElems p m)) ∨
    (p ∉ mp.slots ∧ ∃ code, code ≠ .eok ∧ isixMempoolFree k (some mp) p m = (code, m)) := by
  have htop : (mp.mem + mp.memSize) % sizeMod k = mp.mem + mp.memSize := Nat.mod_eq_of_lt h.blocks.mem_top
  have hin : addrInMempool k mp p = true ↔ mp.mem ≤ p ∧ p < mp.mem + mp.memSize := by
    unfold addrInMempool
    rw [htop, Bool.and_eq_true, decide_eq_true_iff, decide_eq_true_iff]
  unfold isixMempoolFree
  dsimp only
  by_cases hp : p ∈ mp.slots
  · left
    obtain ⟨hle, hlt, hmod⟩ := h.mem_slots.mp hp
    rw [if_neg (h.slot_pos hp), if_neg (not_not.mpr (hin.mpr ⟨hle, hlt⟩)), if_neg (not_not.mpr hmod)]
    exact ⟨hp, rfl⟩
  · right
    refine ⟨hp, ?_⟩
    split
    · exact ⟨_, by decide, rfl⟩
    split
    · exact ⟨_, by decide, rfl⟩
    rename_i haddr
    obtain ⟨hle, hlt⟩ := hin.mp (not_not.mp haddr)
    split
    · exact ⟨_, by decide, rfl⟩
    · rename_i hmod
      exact absurd (h.mem_slots.mpr ⟨hle, hlt, not_not.mp hmod⟩) hp

end

theorem Inv.alloc (h : Inv k elems s) (hs : step k .alloc s = some s') : Inv k elems s' := by
  obtain ⟨free, hr, hperm⟩ := h.partition
  have hnd : (free ++ s.live).Nodup := hperm.nodup_iff.mpr h.fits.nodup
  have hsub : ∀ a ∈ free, a ∈ s.mp.slots := fun a ha => hperm.mem_iff.mp (List.mem_append_left _ ha)
  unfold step at hs
  dsimp only at hs
  rcases isixMempoolAlloc_spec h.fits hr hsub (List.nodup_append.mp hnd).1 with
    ⟨rfl, hcall⟩ | ⟨x, rest, rfl, hcall, hring⟩
  · rw [hcall] at hs
    obtain rfl := Option.some.inj hs
    exact ⟨h.fits, [], hr, hperm⟩
  · rw [hcall] at hs
    obtain rfl := Option.some.inj hs
    rw [if_neg (h.fits.slot_pos (hsub x List.mem_cons_self))]
    exact ⟨h.fits, rest, hring, List.perm_middle.trans hperm⟩

theorem Inv.free (h : Inv k elems s) (hs : step k (.free p) s = some s') : Inv k elems s' := by
  obtain ⟨free, hr, hperm⟩ := h.partition
  have hnd : (free ++ s.live).Nodup := hperm.nodup_iff.mpr h.fits.nodup
  unfold step at hs
  dsimp only at hs
  split at hs
  · rename_i hguard
    rcases isixMempoolFree_spec h.fits p s.mem with ⟨hp, hcall⟩ | ⟨hp, code, hcode, hcall⟩
    · -- a live element goes to the end of the list
      have hlive : p ∈ s.live := hguard.resolve_right (not_not.mpr hp)
      have hpfree : p ∉ free := fun hf => (List.nodup_append.mp hnd).2.2 p hf p hlive rfl
      have hnd' : (free ++ [p]).Nodup := by
        refine List.nodup_append.mpr ⟨(List.nodup_append.mp hnd).1, List.nodup_singleton p, ?_⟩
        rintro a ha b hb rfl
        exact hpfree (List.mem_singleton.mp hb ▸ ha)
      have hsub : ∀ a ∈ free ++ [p], a ∈ s.mp.slots := by
        intro a ha
        rcases List.mem_append.mp ha with ha | ha
        · exact hperm.mem_iff.mp (List.mem_append_left _ ha)
        · exact (List.mem_singleton.mp ha) ▸ hp
      rw [hcall] at hs
      obtain rfl := Option.some.inj hs
      refine ⟨h.fits, free ++ [p], hr.insertEnd (ptrSize_pos k) (h.fits.placed hnd' hsub), ?_⟩
      rw [if_pos rfl, List.append_assoc, List.singleton_append]
      exact ((List.perm_cons_erase hlive).symm.append_left free).trans hperm
    · rw [hcall] at hs
      obtain rfl := Option.some.inj hs
      rw [if_neg hcode]
      exact ⟨h.fits, free, hr, hperm⟩
  · cases hs

/-- A byte a user may write is not part of a free element or of the head. -/
theorem Inv.write {a : Nat} {v : UInt8} (h : Inv k elems s) (hs : step k (.write a v) s = some s') : Inv k elems s' := by
  obtain ⟨free, hr, hperm⟩ := h.partition
  have hnd : (free ++ s.live).Nodup := hperm.nodup_iff.mpr h.fits.nodup
  unfold step at hs
  dsimp only at hs
  split at hs
  · rename_i hguard
    obtain rfl := Option.some.inj hs
    refine ⟨h.fits, free, hr.congr fun f hf x hx hx' => ?_, hperm⟩
    apply Function.update_of_ne
    rintro rfl
    have hnode := h.fits.node
    have hblocks := h.fits.blocks.apart
    have hptr := ptrSize_pos k
    unfold poolSize nodeSize at *
    rcases hguard with hlent | howns
    · obtain ⟨q, hq, hin⟩ := List.any_eq_true.mp hlent
      rw [Bool.and_eq_true, decide_eq_true_iff, decide_eq_true_iff] at hin
      have hslot : q ∈ s.mp.slots := hperm.mem_iff.mp (List.mem_append_right _ hq)
      have hqin := h.fits.inside hslot
      rcases List.mem_cons.mp hf with rfl | hf
      · omega
      · have hne : f ≠ q := fun he => (List.nodup_append.mp hnd).2.2 f hf q hq he
        have := h.fits.disjoint (hperm.mem_iff.mp (List.mem_append_left _ hf)) hslot hne
        omega
    · apply howns
      unfold Pool.owns poolSize nodeSize
      rw [Bool.or_eq_true, Bool.and_eq_true, Bool.and_eq_true]
      simp only [decide_eq_true_iff]
      rcases List.mem_cons.mp hf with rfl | hf
      · exact .inl (by omega)
      · have := h.fits.inside (hperm.mem_iff.mp (List.mem_append_left _ hf))
        exact .inr (by omega)
  · cases hs

theorem Inv.step {e : Event} (h : Inv k elems s) (hs : Step k e s s') : Inv k elems s' := by
  cases e with
  | alloc => exact h.alloc hs
  | free p => exact h.free hs
  | write a v => exact h.write hs

theorem step_mp {e : Event} (hs : Step k e s s') : s'.mp = s.mp := by
  unfold Step Mempool.step at hs
  cases e with
  | alloc =>
    obtain rfl := Option.some.inj hs
    rfl
  | free p =>
    dsimp only at hs
    split at hs
    · obtain rfl := Option.some.inj hs
      rfl
    · cases hs
  | write a v =>
    dsimp only at hs
    split at hs
    · obtain rfl := Option.some.inj hs
      rfl
    · cases hs

/-- What holds of a pool of `elems` elements of at least `size` bytes in a state of its run. -/
structure Sound (k elems size : Nat) (s : State) : Prop where
  /-- the list in memory and the live elements are the element slots, each once -/
  partition : ∃ free, Ring (ptrSize k) s.mem s.mp.freeElems free ∧ (free ++ s.live).Perm s.mp.slots
  nodup : s.mp.slots.Nodup
  length : s.mp.slots.length = elems
  /-- an element has room for what was asked for -/
  room : size ≤ s.mp.elemSize
  /-- the elements lie in the allocated memory, whose size was computed without overflow, and do not overlap -/
  exact : s.mp.memSize = elems * s.mp.elemSize
  inside : ∀ p ∈ s.mp.slots, s.mp.mem ≤ p ∧ p + s.mp.elemSize ≤ s.mp.mem + elems * s.mp.elemSize
  disjoint : s.mp.slots.Pairwise fun a b => a + s.mp.elemSize ≤ b
  /-- an allocation fails if and only if all elements are live, and never hands out a live one -/
  null : (isixMempoolAlloc k (some s.mp) s.mem).1 = 0 ↔ s.live.length = elems
  fresh : (isixMempoolAlloc k (some s.mp) s.mem).1 ≠ 0 →
    (isixMempoolAlloc k (some s.mp) s.mem).1 ∈ s.mp.slots ∧ (isixMempoolAlloc k (some s.mp) s.mem).1 ∉ s.live
  /-- exactly the starts of elements are taken back, and a refusal changes nothing -/
  accepts : ∀ p, (isixMempoolFree k (some s.mp) p s.mem).1 = .eok ↔ p ∈ s.mp.slots
  refuses : ∀ p, (isixMempoolFree k (some s.mp) p s.mem).1 ≠ .eok → (isixMempoolFree k (some s.mp) p s.mem).2 = s.mem

theorem Inv.sound {size : Nat} (h : Inv k elems s) (hsize : size ≤ s.mp.elemSize) : Sound k elems size s := by
  obtain ⟨free, hr, hperm⟩ := h.partition
  have hnd : (free ++ s.live).Nodup := hperm.nodup_iff.mpr h.fits.nodup
  have hsub : ∀ a ∈ free, a ∈ s.mp.slots := fun a ha => hperm.mem_iff.mp (List.mem_append_left _ ha)
  have hlen : free.length + s.live.length = elems := by
    rw [← h.fits.length_slots, ← hperm.length_eq, List.length_append]
  have halloc := isixMempoolAlloc_spec h.fits hr hsub (List.nodup_append.mp hnd).1
  refine ⟨⟨free, hr, hperm⟩, h.fits.nodup, h.fits.length_slots, hsize, h.fits.whole, fun p hp => ?_, h.fits.pairwise,
    ?_, ?_, fun p => ?_, fun p => ?_⟩
  · rw [← h.fits.whole]
    exact h.fits.inside hp
  · rcases halloc with ⟨rfl, hcall⟩ | ⟨x, rest, rfl, hcall, -⟩
    · rw [hcall]
      simpa using hlen
    · rw [hcall]
      have hx := h.fits.slot_pos (hsub x List.mem_cons_self)
      rw [List.length_cons] at hlen
      exact iff_of_false hx (by omega)
  · rcases halloc with ⟨rfl, hcall⟩ | ⟨x, rest, rfl, hcall, -⟩
    · rw [hcall]
      exact fun h0 => absurd rfl h0
    · rw [hcall]
      intro _
      refine ⟨hsub x List.mem_cons_self, fun hlive => ?_⟩
      exact (List.nodup_append.mp hnd).2.2 x List.mem_cons_self x hlive rfl
  · rcases isixMempoolFree_spec h.fits p s.mem with ⟨hp, hcall⟩ | ⟨hp, code, hcode, hcall⟩
    · rw [hcall]
      exact iff_of_true rfl hp
    · rw [hcall]
      exact iff_of_false hcode hp
  · rcases isixMempoolFree_spec h.fits p s.mem with ⟨hp, hcall⟩ | ⟨hp, code, hcode, hcall⟩
    · rw [hcall]
      exact fun h0 => absurd rfl h0
    · rw [hcall]
      exact fun _ => rfl

/-- **Memory pool**: in every run of allocations, of frees of live elements or of other addresses, and of
writes of the users, a pool of any accepted number and size of elements is sound. -/
theorem mempool_sound (k elems size mp mem : Nat) (m₀ m : Mem) (pool : Pool) (hsize : size < sizeMod k)
    (hc : isixMempoolCreate k elems size mp mem m₀ = some (pool, m)) (hb : Blocks k mp mem (elems * pool.elemSize))
    (hrun : Run (Step k) ⟨pool, m, []⟩ s) : s.mp = pool ∧ Sound k elems size s := by
  obtain ⟨hcreated, hm⟩ := isixMempoolCreate_some hc
  have hfits := hcreated.geometry hb
  have hinit : Inv k elems ⟨pool, m, []⟩ := by
    refine ⟨hfits, pool.slots, ?_, by rw [List.append_nil]⟩
    rw [hm]
    apply insertLoop_ring hfits (Nat.zero_add elems)
    rw [hcreated.head_eq]
    have := hb.pool_top
    exact DList.ring_nil (by unfold sizeMod at this; omega)
  have hkeeps : s.mp = pool ∧ Inv k elems s :=
    hrun.keeps (P := fun s => s.mp = pool ∧ Inv k elems s)
      (fun e s s' h hs => ⟨(step_mp hs).trans h.1, h.2.step hs⟩) ⟨rfl, hinit⟩
  refine ⟨hkeeps.1, hkeeps.2.sound ?_⟩
  have hnode := hcreated.node
  have := ptrSize_pos k
  rw [hkeeps.1]
  rw [hcreated.elemSize] at hnode ⊢
  apply isixpAlignSize_ge hsize
  unfold nodeSize at hnode
  omega

/-- A pool of two elements for five bytes each. -/
def pair : Pool := ⟨100, 200, 16, 8⟩

def pairMem : Mem := insertLoop 2 pair 2 0 (DList.setPrev 4 100 100 (DList.setNext 4 100 100 fun _ => 0))

/-- Both elements are handed out, one is written and given back, and an address inside it is refused. -/
def pairUsed : Reached (Step 2) ⟨pair, pairMem, []⟩ fun s => s.live = [208] :=
  reached (fun _ _ _ h => h) [.alloc, .alloc, .write 203 7, .free 204, .free 200] (by decide +kernel)

theorem mempool_of_two : pairUsed.state.mp = pair ∧ Sound 2 2 5 pairUsed.state :=
  mempool_sound 2 2 5 100 200 (fun _ => 0) pairMem pair (by decide +kernel) (by rfl)
    ⟨by decide +kernel, by decide +kernel, .inl (by decide +kernel)⟩ pairUsed.run

end Isix.Mempool
