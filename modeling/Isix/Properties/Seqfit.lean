import Isix.Properties.SeqfitCalls

/-!
# Isix.Properties.Seqfit

The heap over whole runs: in every state the free list and the live blocks are
the region the heap was given, and every call returns.
-/

namespace Isix.Seqfit

open Memory Tiling Runs

section

variable {R : Region} {h h' : Heap} {m : Mem} {l : List Block} {n a p q fuel : Nat}

/-! ## enough fuel -/

theorem allocLoop_mono {k : Nat} {r : Mem × Nat} (hr : allocLoop R n fuel q m = some r) (hk : fuel ≤ k) :
    allocLoop R n k q m = some r := by
  induction fuel generalizing q k with
  | zero => cases hr
  | succ fuel ih =>
    obtain ⟨k, rfl⟩ : ∃ j, k = j + 1 := ⟨k - 1, by omega⟩
    rw [allocLoop] at hr ⊢
    split
    · rwa [if_pos (by assumption)] at hr
    · rw [if_neg (by assumption)] at hr
      simp only at hr ⊢
      split
      · rwa [if_pos (by assumption)] at hr
      · rw [if_neg (by assumption)] at hr
        exact ih hr (by omega)

theorem freeLoop_mono {k s : Nat} {m' : Mem} (hr : freeLoop R s p fuel q m = some m') (hk : fuel ≤ k) :
    freeLoop R s p k q m = some m' := by
  induction fuel generalizing q k with
  | zero => cases hr
  | succ fuel ih =>
    obtain ⟨k, rfl⟩ : ∃ j, k = j + 1 := ⟨k - 1, by omega⟩
    rw [freeLoop] at hr ⊢
    split
    · rwa [if_pos (by assumption)] at hr
    · rw [if_neg (by assumption)] at hr
      exact ih hr (by omega)

theorem seqfitFree_mono {k : Nat} {m' : Mem} (hr : seqfitFree R fuel p m = some m') (hk : fuel ≤ k) :
    seqfitFree R k p m = some m' := by
  unfold seqfitFree at hr ⊢
  split
  · rwa [if_pos (by assumption)] at hr
  · rw [if_neg (by assumption)] at hr
    exact freeLoop_mono hr hk

theorem seqfitRealloc_mono {k : Nat} {r : Mem × Nat} (hr : seqfitRealloc R fuel p n m = some r) (hk : fuel ≤ k) :
    seqfitRealloc R k p n m = some r := by
  unfold seqfitRealloc at hr ⊢
  split
  · rw [if_pos (by assumption)] at hr
    exact allocLoop_mono hr hk
  · rw [if_neg (by assumption)] at hr
    split
    · rw [if_pos (by assumption)] at hr
      obtain ⟨m', hm', rfl⟩ := Option.map_eq_some_iff.mp hr
      rw [seqfitFree_mono hm' hk]
      rfl
    · rw [if_neg (by assumption)] at hr
      simp only at hr ⊢
      split
      · rwa [if_pos (by assumption)] at hr
      · rw [if_neg (by assumption)] at hr
        obtain ⟨a, ha, hr⟩ := Option.bind_eq_some_iff.mp hr
        rw [show seqfitAlloc R k n m = some a from allocLoop_mono ha hk, Option.bind_some]
        split
        · rw [if_pos (by assumption)] at hr
          obtain ⟨m', hm', rfl⟩ := Option.map_eq_some_iff.mp hr
          rw [seqfitFree_mono hm' hk]
          rfl
        · rwa [if_neg (by assumption)] at hr

theorem exec_mono {k : Nat} {op : Op} (hr : exec R fuel h op = some h') (hk : fuel ≤ k) :
    exec R k h op = some h' := by
  cases op with
  | alloc n =>
    obtain ⟨r, ha, rfl⟩ := Option.map_eq_some_iff.mp hr
    rw [exec, show seqfitAlloc R k n h.mem = some r from allocLoop_mono ha hk]
    rfl
  | free p =>
    obtain ⟨r, hf, rfl⟩ := Option.map_eq_some_iff.mp hr
    rw [exec, seqfitFree_mono hf hk]
    rfl
  | realloc p n =>
    obtain ⟨r, ha, rfl⟩ := Option.map_eq_some_iff.mp hr
    rw [exec, seqfitRealloc_mono ha hk]
    rfl
  | write p off b => exact hr

/-! ## runs -/

theorem Layout.step (hl : Layout R h l) {op : Op} (hs : Step R NoWrap op h h') :
    (∃ l', Layout R h' l') ∧ Kept op h h' := by
  obtain ⟨hv, hw, fuel, hexec⟩ := hs
  obtain ⟨h'', l', hexec', hl', hk⟩ := hl.exec hv hw (show l.length + 1 < fuel + (l.length + 2) by omega)
  have heq : h'' = h' := Option.some.inj (hexec'.symm.trans (exec_mono hexec (Nat.le_add_right _ _)))
  subst heq
  exact ⟨⟨l', hl'⟩, hk⟩

/-- `seqfit_alloc_init` lays out one free block. -/
theorem layout_init (hlen : 8 ≤ R.len) (m : Mem) : Layout R ⟨seqfitAllocInit R m, []⟩ [⟨R.len - 8, false⟩] := by
  have hstart : Header R R.start := Or.inr ⟨R.start_align, Nat.le_refl _, by omega⟩
  have hheap : Header R R.heap := Or.inl rfl
  have hfits := R.start_fits
  have hdvd := R.len_align
  have hne : R.start ≠ R.heap := by
    have := R.apart
    omega
  have hsub : sub R.len headerSize = R.len - 8 :=
    sub_eq (by simp only [headerSize]; omega) (by simp only [sizeMod]; omega)
  refine ⟨⟨?_, ?_, ⟨?_, ?_, trivial⟩, ?_, ?_⟩, .singleton _, ?_, .nil⟩
  · simp only [endOf]
    omega
  · intro b hb
    rw [List.mem_singleton.mp hb]
    simp only
    omega
  · show size R.start (setUsed R 0 _) = _
    rw [size_setUsed R hstart, size_setSize R hheap hstart (by decide), if_neg hne, size_setNext R hheap hstart,
      size_setNext R hstart hstart, size_setSize R hstart hstart (by rw [hsub]; omega), if_pos rfl, hsub]
  · show next R.start (setUsed R 0 _) = _
    rw [next_setUsed R hstart, next_setSize R hheap hstart, next_setNext R hheap hstart (by omega), if_neg hne,
      next_setNext R hstart hstart (by decide), if_pos rfl]
    rfl
  · show next R.heap (setUsed R 0 _) = _
    rw [next_setUsed R hheap, next_setSize R hheap hheap, next_setNext R hheap hheap (by omega), if_pos rfl]
    rfl
  · show size R.heap (setUsed R 0 _) = _
    rw [size_setUsed R hheap, size_setSize R hheap hheap (by decide), if_pos rfl]
  · exact used_setUsed R (by decide)

theorem layout_run (hlen : 8 ≤ R.len) (m : Mem) (hr : Run (Step R NoWrap) ⟨seqfitAllocInit R m, []⟩ h) :
    ∃ l, Layout R h l :=
  hr.keeps (P := fun h => ∃ l, Layout R h l) (fun _ _ _ ⟨_, hl⟩ hs => (hl.step hs).1) ⟨_, layout_init hlen m⟩

/-! ## the free list and the cover -/

/-- Following `h_next` from `p` gives the blocks `fs`. -/
inductive FreeList (m : Mem) : Nat → List Nat → Prop
  | nil : FreeList m 0 []
  | cons {p : Nat} {fs : List Nat} (hp : p ≠ 0) (h : FreeList m (next p m) fs) : FreeList m p (p :: fs)

/-- The blocks of the heap: `fs` is the free list, and the blocks on it and the
live ones, with their headers, are the region. -/
structure Covers (R : Region) (h : Heap) (fs : List Nat) : Prop where
  free : FreeList h.mem (next R.heap h.mem) fs
  ascending : fs.Pairwise (· < ·)
  inside : ∀ p ∈ fs, R.start ≤ p ∧ p + 8 + size p h.mem ≤ R.start + R.len ∧ 8 ∣ size p h.mem
  not_adjacent : ∀ p ∈ fs, ∀ q ∈ fs, p + 8 + size p h.mem ≠ q
  disjoint : (fs ++ h.live.map (· - 8)).Pairwise fun p q =>
    p + 8 + size p h.mem ≤ q ∨ q + 8 + size q h.mem ≤ p
  covers : ∀ x, (R.start ≤ x ∧ x < R.start + R.len) ↔
    ∃ p ∈ fs ++ h.live.map (· - 8), p ≤ x ∧ x < p + 8 + size p h.mem
  used : used R h.mem = (h.live.map fun p => size (p - 8) h.mem).sum
  empty : h.live = [] → fs = [R.start] ∧ size R.start h.mem = R.len - 8
  check : ∃ fuel, isixpHeapCheck R fuel h.mem = some 0

theorem freeList_of_laid {e : Nat} {fs : List Nat} (hl : Laid m a l e) (ha : 0 < a) (he : FreeList m e fs) :
    FreeList m (nextFree 8 a l e) ((freePlaces 8 a l).map Prod.fst ++ fs) := by
  induction l generalizing a with
  | nil => exact he
  | cons b l ih =>
    obtain ⟨-, hnext, hrest⟩ := hl
    have ih := ih hrest (by omega)
    cases hb : b.used with
    | true => simpa [nextFree, freePlaces, place, hb] using ih
    | false =>
      simp only [nextFree, freePlaces, place, hb, Bool.not_false, List.filter_cons_of_pos, List.map_cons,
        List.cons_append, Bool.false_eq_true, if_false]
      refine .cons (by omega) ?_
      rw [hnext, hb]
      exact ih

theorem Layout.live_places (hl : Layout R h l) :
    (h.live.map (· - 8)).Perm ((usedPlaces 8 R.start l).map Prod.fst) := by
  have h := hl.live.map (· - 8)
  simpa [Function.comp_def] using h

/-- The free and the live blocks are the blocks of the list. -/
theorem Layout.all_places (hl : Layout R h l) :
    ((freePlaces 8 R.start l).map Prod.fst ++ h.live.map (· - 8)).Perm ((place 8 R.start l).map Prod.fst) := by
  have hperm := (perm_place (w := 8) (a := R.start) (l := l)).map Prod.fst
  rw [List.map_append] at hperm
  exact (hl.live_places.append_left _).trans hperm

/-- Without live blocks the heap is one free block. -/
theorem Layout.single (hl : Layout R h l) (hlen : 8 ≤ R.len) (hlive : h.live = []) : ∃ b, l = [b] ∧ b.used = false := by
  have hnone : usedPlaces 8 R.start l = [] := by
    have hperm := hl.live
    rw [hlive] at hperm
    exact List.map_eq_nil_iff.mp hperm.nil_eq.symm
  have hall : ∀ b ∈ l, b.used = false := fun b hb => by
    obtain ⟨u, v, rfl⟩ := List.append_of_mem hb
    by_contra hused
    have hmem : (_, b) ∈ usedPlaces 8 R.start (u ++ b :: v) :=
      mem_usedPlaces.mpr ⟨mem_place.mpr ⟨u, v, rfl, rfl⟩, by simpa using hused⟩
    rw [hnone] at hmem
    cases hmem
  have hends := hl.ends
  obtain ⟨b, rfl⟩ := hl.apart.eq_singleton hall fun hnil => by
    rw [hnil, endOf] at hends
    omega
  exact ⟨b, rfl, hall b List.mem_cons_self⟩

theorem Layout.covers (hl : Layout R h l) (hlen : 8 ≤ R.len) : Covers R h ((freePlaces 8 R.start l).map Prod.fst) := by
  have hsize : ∀ p ∈ place 8 R.start l, size p.1 h.mem = p.2.size := fun p hp => hl.size_place hp
  have hpw := pairwise_place (w := 8) R.start l
  have hfree : ∀ p ∈ (freePlaces 8 R.start l).map Prod.fst, ∃ b, (p, b) ∈ place 8 R.start l ∧ b.used = false := by
    intro p hp
    obtain ⟨⟨p, b⟩, hb, rfl⟩ := List.mem_map.mp hp
    exact ⟨b, mem_freePlaces.mp hb⟩
  refine ⟨?_, ?_, ?_, ?_, ?_, ?_, ?_, ?_, ?_⟩
  · have h := freeList_of_laid hl.laid R.start_pos .nil
    rwa [List.append_nil, ← hl.head] at h
  · exact List.pairwise_map.mpr ((hpw.filter _).imp fun hpq => by omega)
  · intro p hp
    obtain ⟨b, hb, -⟩ := hfree p hp
    obtain ⟨h₁, h₂⟩ := bounds hb
    rw [hsize _ hb]
    exact ⟨h₁, by rwa [hl.ends] at h₂, hl.sizes b (mem_of_mem_place hb)⟩
  · intro p hp q hq
    obtain ⟨b, hb, hbf⟩ := hfree p hp
    obtain ⟨c, hc, hcf⟩ := hfree q hq
    rw [hsize _ hb]
    exact hl.apart.not_adjacent (by decide) hb hc hbf hcf
  · rw [hl.all_places.pairwise_iff Or.symm, List.pairwise_map]
    refine hpw.imp_of_mem fun {p q} hp hq hpq => .inl ?_
    rwa [hsize p hp]
  · intro x
    constructor
    · rintro ⟨h₁, h₂⟩
      obtain ⟨p, hp, hx⟩ := Tiling.covered h₁ (by rwa [hl.ends])
      exact ⟨p.1, hl.all_places.mem_iff.mpr (List.mem_map_of_mem hp), by rwa [hsize p hp]⟩
    · rintro ⟨y, hy, hx⟩
      obtain ⟨p, hp, rfl⟩ := List.mem_map.mp (hl.all_places.mem_iff.mp hy)
      have hb := bounds hp
      rw [hl.ends] at hb
      rw [hsize p hp] at hx
      omega
  · have hsum := ((hl.live_places.map fun p => size p h.mem)).sum_eq
    rw [List.map_map, List.map_map] at hsum
    rw [hl.used_eq]
    refine Eq.trans ?_ hsum.symm
    congr 1
    refine List.map_congr_left fun p hp => (hsize p (List.mem_of_mem_filter hp)).symm
  · intro hlive
    obtain ⟨b, rfl, hb⟩ := hl.single hlen hlive
    have hends := hl.ends
    rw [endOf, endOf] at hends
    refine ⟨by simp [freePlaces, place, hb], ?_⟩
    rw [hsize (R.start, b) List.mem_cons_self]
    simp only
    omega
  · have hlay₀ : Laying R h.mem ([] ++ l) := hl.toLaying
    have hcheck := checkLoop_spec hlay₀ hl.apart (Nat.lt_succ_self l.length)
    rw [endOf, ← hl.head] at hcheck
    exact ⟨_, hcheck⟩

end

/-- **Heap**: in every run from an initialised region, with any calls but a
reallocation whose size wraps, the free blocks and the live blocks are the region,
every further call returns, and bodies are changed by their owners only. -/
theorem heap_covered (R : Region) (hlen : 8 ≤ R.len) (m : Mem) (h : Heap)
    (hr : Run (Step R NoWrap) ⟨seqfitAllocInit R m, []⟩ h) :
    (∃ fs, Covers R h fs) ∧ (∀ op, op.valid h → NoWrap op → ∃ fuel h', exec R fuel h op = some h') ∧
      ∀ op h', Step R NoWrap op h h' → Kept op h h' := by
  obtain ⟨l, hl⟩ := layout_run hlen m hr
  refine ⟨⟨_, hl.covers hlen⟩, fun op hv hw => ?_, fun op h' hs => (hl.step hs).2⟩
  obtain ⟨h', -, hexec, -⟩ := hl.exec hv hw (Nat.lt_succ_self (l.length + 1))
  exact ⟨_, h', hexec⟩

/-- A region of 64 bytes. -/
def smallRegion : Region where
  start := 16
  len := 64
  heap := 0
  start_align := by decide
  len_align := by decide
  heap_align := by decide
  start_pos := by decide
  start_fits := by decide
  heap_fits := by decide
  apart := by decide

/-- Two blocks are taken, the first one is given back and the other one grows. -/
theorem small_heap_covered : ∃ h, Run (Step smallRegion NoWrap) ⟨seqfitAllocInit smallRegion fun _ => 0, []⟩ h ∧
    h.live = [56] ∧ ∃ fs, Covers smallRegion h fs := by
  have hrun : ∃ h, Run (Step smallRegion NoWrap) ⟨seqfitAllocInit smallRegion fun _ => 0, []⟩ h ∧
      h.live = [56] :=
    exists_run (step_of_step? smallRegion NoWrap 9) [.alloc 5, .alloc 8, .free 24, .realloc 40 9]
      (by decide +kernel)
  obtain ⟨h, hr, hlive⟩ := hrun
  exact ⟨h, hr, hlive, (heap_covered smallRegion (by decide) _ h hr).1⟩

/-- A reallocation to 0xFFFFFFFF bytes returns a block without a body and copies the
old bytes over the header behind it; the check of the heap then fails. -/
theorem realloc_wrap_breaks_heap : ∃ h,
    Run (Step smallRegion fun _ => True) ⟨seqfitAllocInit smallRegion fun _ => 0, []⟩ h ∧
      isixpHeapCheck smallRegion 9 h.mem = some (-2) :=
  exists_run (step_of_step? smallRegion (fun _ => True) 9) [.alloc 8, .write 24 4 1, .realloc 24 0xFFFFFFFF] (by decide +kernel)

/-! ## the size of a block -/

/-- The block `q` is aligned, has room for `n` bytes, and lies apart from the other live blocks. -/
structure Granted (n q : Nat) (h : Heap) : Prop where
  align : 8 ∣ q
  size : n ≤ seqfitHeapGetsize q h.mem
  apart : ∀ p ∈ h.live, p ≠ q → p + seqfitHeapGetsize p h.mem + 8 ≤ q ∨ q + seqfitHeapGetsize q h.mem + 8 ≤ p

section

variable {R : Region} {h : Heap} {m : Mem} {l : List Block} {n p q : Nat}

theorem Layout.granted (hl : Layout R h l) (hq : q ∈ h.live) (hn : n ≤ size (q - 8) h.mem) : Granted n q h := by
  obtain ⟨c, hc, hq8⟩ := hl.mem_live.mp hq
  obtain ⟨hplace, -⟩ := mem_usedPlaces.mp hc
  refine ⟨?_, by rwa [hl.getsize hq], fun p hp hne => ?_⟩
  · obtain ⟨u, v, rfl, hend⟩ := mem_place.mp hplace
    have hdvd := dvd_endOf R.start_align fun b hb => hl.sizes b (List.mem_append_left _ hb)
    rw [← hend] at hdvd
    omega
  · obtain ⟨d, hd, hp8⟩ := hl.mem_live.mp hp
    obtain ⟨hplace', -⟩ := mem_usedPlaces.mp hd
    rw [hl.getsize hp, hl.getsize hq, hl.size_place hplace, hl.size_place hplace']
    rcases eq_or_apart hplace' hplace with ⟨heq, -⟩ | hapart <;> omega

/-- A block for `n` bytes where the size does not wrap. -/
theorem Layout.granted_new (hl : Layout R h l) (hq : q ∈ h.live) (hn : n ≤ 0xFFFFFFF8)
    (hmem : (q - 8, ⟨alignSize n, true⟩) ∈ usedPlaces 8 R.start l) : Granted n q h := by
  refine hl.granted hq ?_
  rw [hl.size_place (mem_usedPlaces.mp hmem).1]
  exact le_alignSize hn

theorem Layout.alloc_granted (hl : Layout R h l) (hn : n ≤ 0xFFFFFFF8) : ∃ fuel m q,
    seqfitAlloc R fuel n h.mem = some (m, q) ∧ (q = 0 → m = h.mem) ∧
      (q ≠ 0 → q ∉ h.live ∧ Granted n q ⟨m, q :: h.live⟩) := by
  obtain ⟨m, q, l', halloc, hl', -, -, -, hzero, hnew⟩ := hl.alloc n (Nat.lt_succ_self l.length)
  refine ⟨_, m, q, halloc, hzero, fun hq => ?_⟩
  rw [if_neg hq] at hl'
  exact ⟨(List.nodup_cons.mp hl'.nodup).1, hl'.granted_new (List.mem_cons_self ..) hn (hnew hq).2⟩

theorem Layout.realloc_granted (hl : Layout R h l) (hp : p ∈ h.live) (hn₀ : 0 < n) (hn : n ≤ 0xFFFFFFF8) :
    ∃ fuel m q, seqfitRealloc R fuel p n h.mem = some (m, q) ∧ (q = 0 → m = h.mem) ∧
      (q ≠ 0 → Granted n q ⟨m, q :: h.live.erase p⟩ ∧
        ∀ i < min (seqfitHeapGetsize p h.mem) n, m (q + i) = h.mem (p + i)) := by
  have hp₀ : p ≠ 0 := fun h₀ => hl.zero_not_mem (h₀ ▸ hp)
  by_cases hfit : n ≤ size (p - 8) h.mem
  · have hrealloc : seqfitRealloc R 0 p n h.mem = some (h.mem, p) := by
      simp [seqfitRealloc, hp₀, Nat.ne_of_gt hn₀, hl.getsize hp, hfit]
    have hl' : Layout R ⟨h.mem, p :: h.live.erase p⟩ l :=
      ⟨hl.toLaying, hl.apart, hl.used_eq, (List.perm_cons_erase hp).symm.trans hl.live⟩
    exact ⟨0, h.mem, p, hrealloc, fun _ => rfl, fun _ => ⟨hl'.granted (List.mem_cons_self ..) hfit, fun _ _ => rfl⟩⟩
  · obtain ⟨m, q, l', hmove, hl', -, hzero, hcopy⟩ := hl.move hp (by omega) hn (Nat.lt_succ_self (l.length + 1))
    refine ⟨_, m, q, hmove, hzero, fun hq => ?_⟩
    obtain ⟨-, hmem, hbytes⟩ := hcopy hq
    rw [if_neg hq] at hl'
    refine ⟨hl'.granted_new (List.mem_cons_self ..) hn hmem, fun i hi => hbytes i ?_⟩
    rw [hl.getsize hp] at hi
    omega

end

/-- **Sizes**: in every heap that calls lead to, an allocation of a size that does not wrap returns, and a
pointer that is not `NULL` is an aligned block of at least that size, apart from all live blocks; a reallocation
returns such a block with the old bytes up to the smaller size, or `NULL` with the memory as it was. -/
theorem sizes_granted (R : Region) (hlen : 8 ≤ R.len) (m : Mem) (h : Heap)
    (hr : Run (Step R NoWrap) ⟨seqfitAllocInit R m, []⟩ h) (n : Nat) (hn : n ≤ 0xFFFFFFF8) :
    (∃ fuel m' q, seqfitAlloc R fuel n h.mem = some (m', q) ∧ (q = 0 → m' = h.mem) ∧
      (q ≠ 0 → q ∉ h.live ∧ Granted n q ⟨m', q :: h.live⟩)) ∧
    ∀ p, 0 < n → (p ∈ h.live → ∃ fuel m' q, seqfitRealloc R fuel p n h.mem = some (m', q) ∧ (q = 0 → m' = h.mem) ∧
        (q ≠ 0 → Granted n q ⟨m', q :: h.live.erase p⟩ ∧
          ∀ i < min (seqfitHeapGetsize p h.mem) n, m' (q + i) = h.mem (p + i))) ∧
      (p = 0 → ∀ fuel, seqfitRealloc R fuel p n h.mem = seqfitAlloc R fuel n h.mem) := by
  obtain ⟨l, hl⟩ := layout_run hlen m hr
  refine ⟨hl.alloc_granted hn, fun p hn₀ => ⟨fun hp => hl.realloc_granted hp hn₀ hn, fun hp fuel => ?_⟩⟩
  rw [hp]
  rfl

/-- A heap with one live block, after another one was given back, grants 5 bytes and moves the block to 9 bytes. -/
theorem small_heap_granted : ∃ h, Run (Step smallRegion NoWrap) ⟨seqfitAllocInit smallRegion fun _ => 0, []⟩ h ∧
    h.live = [40] ∧
    (∃ fuel m' q, seqfitAlloc smallRegion fuel 5 h.mem = some (m', q) ∧ (q ≠ 0 → Granted 5 q ⟨m', [q, 40]⟩)) ∧
    ∃ fuel m' q, seqfitRealloc smallRegion fuel 40 9 h.mem = some (m', q) ∧ (q ≠ 0 → Granted 9 q ⟨m', [q]⟩) := by
  have hrun : ∃ h, Run (Step smallRegion NoWrap) ⟨seqfitAllocInit smallRegion fun _ => 0, []⟩ h ∧ h.live = [40] :=
    exists_run (step_of_step? smallRegion NoWrap 9) [.alloc 5, .alloc 8, .free 24] (by decide +kernel)
  obtain ⟨h, hr, hlive⟩ := hrun
  obtain ⟨fuel, m₁, q, halloc, -, hq⟩ := (sizes_granted smallRegion (by decide) _ h hr 5 (by decide)).1
  obtain ⟨fuel', m₂, q', hre, -, hq'⟩ :=
    ((sizes_granted smallRegion (by decide) _ h hr 9 (by decide)).2 40 (by decide)).1 (by rw [hlive]; decide)
  rw [hlive] at hq hq'
  exact ⟨h, hr, hlive, ⟨fuel, m₁, q, halloc, fun h₀ => (hq h₀).2⟩, fuel', m₂, q', hre, fun h₀ => (hq' h₀).1⟩

/-- A request for 0xFFFFFFF9 bytes gets a block without a body. -/
theorem alloc_wraps : ∃ m', seqfitAlloc smallRegion 9 0xFFFFFFF9 (seqfitAllocInit smallRegion fun _ => 0) = some (m', 24) ∧
    seqfitHeapGetsize 24 m' = 0 := by
  have heval : ((seqfitAlloc smallRegion 9 0xFFFFFFF9 (seqfitAllocInit smallRegion fun _ => 0)).any fun r =>
      decide (r.2 = 24 ∧ seqfitHeapGetsize 24 r.1 = 0)) = true := by
    decide +kernel
  obtain ⟨⟨m', q⟩, hr, hq⟩ := (Option.any_eq_true _ _).mp heval
  obtain ⟨hq, hsize⟩ := of_decide_eq_true hq
  exact ⟨m', by rw [hr, ← hq], hsize⟩

end Isix.Seqfit
