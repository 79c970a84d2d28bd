import Isix.Properties.SeqfitLayout

/-!
# Isix.Properties.SeqfitCalls

The calls of the heap.  The loops walk the free blocks of the list of blocks
(`SeqfitLayout`), so each call is one change of that list: an allocation cuts a
free block, a release frees a used one, and a reallocation is an allocation, a
copy and a release.  What is in the body of a block is touched by its owner only.

A reallocation to more than 0xFFFFFFF8 bytes is left out (`NoWrap`): `ALIGN_SIZE`
wraps to 0, and the copy is made into a block without a body.
-/

namespace Isix.Seqfit

open Memory Tiling

/-! ## the loops -/

section

variable {R : Region} {m : Mem} {l₁ l₂ u v : List Block} {b : Block} {n s fuel : Nat}

theorem lastFree_snoc_used (d : Nat) (hb : b.used = true) :
    lastFree 8 d R.start (l₁ ++ [b]) = lastFree 8 d R.start l₁ := by
  rw [lastFree_append, lastFree, if_pos hb]
  rfl

theorem lastFree_snoc_free (d : Nat) (hb : b.used = false) :
    lastFree 8 d R.start (l₁ ++ [b]) = endOf 8 R.start l₁ := by
  rw [lastFree_append, lastFree, hb]
  rfl

theorem endOf_pos (R : Region) (l : List Block) : 0 < endOf 8 R.start l :=
  Nat.lt_of_lt_of_le R.start_pos (le_endOf _ _)

/-- The search of `seqfit_alloc` finds a free block that is large enough, or there
is none. -/
theorem allocLoop_spec (h : Laying R m (l₁ ++ l₂)) (hf : l₂.length < fuel) :
    allocLoop R n fuel (lastFree 8 R.heap R.start l₁) m = some (m, 0) ∨
      ∃ u b w, l₂ = u ++ b :: w ∧ b.used = false ∧ n ≤ b.size ∧
        allocLoop R n fuel (lastFree 8 R.heap R.start l₁) m =
          some (takeBlock R n (lastFree 8 R.heap R.start (l₁ ++ u)) (endOf 8 R.start (l₁ ++ u)) m,
            endOf 8 R.start (l₁ ++ u) + 8) := by
  induction l₂ generalizing l₁ fuel with
  | nil =>
    have hnext := h.next_last
    obtain ⟨fuel, rfl⟩ : ∃ k, fuel = k + 1 := ⟨fuel - 1, by omega⟩
    left
    rw [allocLoop, hnext]
    rfl
  | cons b l₂ ih =>
    have hspot := h.spot
    have hassoc : ∀ w, l₁ ++ [b] ++ w = l₁ ++ b :: w := fun w => by simp
    have h' : Laying R m (l₁ ++ [b] ++ l₂) := by rwa [hassoc]
    have hlen : ∀ k, fuel ≤ k + 1 → l₂.length < k := fun k hk => by
      rw [List.length_cons] at hf
      omega
    cases hb : b.used with
    | true =>
      rw [← lastFree_snoc_used R.heap hb]
      rcases ih h' (hlen fuel (by omega)) with hnone | ⟨u, c, w, rfl, hc, hn, hres⟩
      · exact .inl hnone
      · rw [hassoc] at hres
        exact .inr ⟨b :: u, c, w, rfl, hc, hn, hres⟩
    | false =>
      obtain ⟨fuel, rfl⟩ : ∃ k, fuel = k + 1 := ⟨fuel - 1, by simp at hf; omega⟩
      have hpos := endOf_pos R l₁
      have hnext : next (lastFree 8 R.heap R.start l₁) m = endOf 8 R.start l₁ := by
        rw [hspot.next_last, nextFree, hb]
        rfl
      rw [allocLoop, hnext, if_neg (by omega)]
      simp only [hspot.size_eq]
      split
      · rename_i hn
        exact .inr ⟨[], b, l₂, rfl, hb, hn, by simp [headerSize]⟩
      · rw [← lastFree_snoc_free R.heap hb]
        rcases ih h' (hlen fuel (Nat.le_refl _)) with hnone | ⟨u, c, w, rfl, hc, hn, hres⟩
        · exact .inl hnone
        · rw [hassoc] at hres
          exact .inr ⟨b :: u, c, w, rfl, hc, hn, hres⟩

/-- Behind a place there is no free block, or it has a larger address. -/
theorem nextFree_zero_or_lt (a : Nat) (l : List Block) : nextFree 8 a l 0 = 0 ∨ a ≤ nextFree 8 a l 0 := by
  rcases nextFree_cases 8 a l with hu | ⟨u, b, v, -, -, -, hn⟩
  · exact .inl (nextFree_of_used hu)
  · rw [hn]
    exact .inr (le_endOf a u)

/-- The search of `seqfit_free` stops at the last free block before the one to insert. -/
theorem freeLoop_spec (h : Laying R m (u ++ v ++ b :: l₂)) (hb : b.used = true) (hf : v.length < fuel) :
    freeLoop R s (endOf 8 R.start (u ++ v)) fuel (lastFree 8 R.heap R.start u) m =
      some (insertBlock R s (lastFree 8 R.heap R.start (u ++ v)) (endOf 8 R.start (u ++ v)) m) := by
  induction v generalizing u fuel with
  | nil =>
    obtain ⟨fuel, rfl⟩ : ∃ k, fuel = k + 1 := ⟨fuel - 1, by omega⟩
    rw [List.append_nil] at h ⊢
    have hspot := h.spot
    have hlast := hspot.last
    have hnext := hspot.next_last
    rw [nextFree, if_pos hb] at hnext
    have hlt := nextFree_zero_or_lt (endOf 8 R.start u + 8 + b.size) l₂
    rw [freeLoop, hnext, if_pos]
    omega
  | cons c v ih =>
    have hassoc : u ++ [c] ++ v = u ++ c :: v := by simp
    have h' : Laying R m (u ++ [c] ++ v ++ b :: l₂) := by rwa [hassoc]
    cases hc : c.used with
    | true =>
      have hrest := ih h' (show v.length < fuel by rw [List.length_cons] at hf; omega)
      rwa [hassoc, lastFree_snoc_used R.heap hc] at hrest
    | false =>
      obtain ⟨fuel, rfl⟩ : ∃ k, fuel = k + 1 := ⟨fuel - 1, by simp at hf; omega⟩
      have hspot := (show Laying R m (u ++ c :: (v ++ b :: l₂)) by simpa using h).spot
      have hnext : next (lastFree 8 R.heap R.start u) m = endOf 8 R.start u := by
        rw [hspot.next_last, nextFree, hc]
        rfl
      have hpos := endOf_pos R u
      have hlt : endOf 8 R.start u < endOf 8 R.start (u ++ c :: v) := by
        have := le_endOf (w := 8) (endOf 8 R.start u + 8 + c.size) v
        rw [endOf_append, endOf]
        omega
      have hrest := ih h' (show v.length < fuel by rw [List.length_cons] at hf; omega)
      rw [hassoc, lastFree_snoc_free R.heap hc] at hrest
      rw [freeLoop, hnext, if_neg (by omega)]
      exact hrest

/-- The blocks before a place and the last free one among them. -/
theorem last_limit (h : Laying R m (l₁ ++ b :: l₂)) (hb : b.used = false) (hap : Apart (l₁ ++ b :: l₂)) :
    lastFree 8 0 R.start l₁ = 0 ∨
      lastFree 8 0 R.start l₁ < endOf 8 R.start l₁ ∧
        limit (lastFree 8 0 R.start l₁) m < endOf 8 R.start l₁ := by
  rcases lastFree_cases 8 R.start l₁ with hu | ⟨u, c, v, rfl, hv, hc, hl⟩
  · exact .inl (lastFree_of_used hu)
  · right
    have hspot := (show Laying R m (u ++ c :: (v ++ b :: l₂)) by simpa using h).spot
    have hend : endOf 8 R.start (u ++ c :: v) = endOf 8 (endOf 8 R.start u + 8 + c.size) v := by
      rw [endOf_append, endOf]
    have hle := le_endOf (w := 8) (endOf 8 R.start u + 8 + c.size) v
    rw [hl, hspot.limit_eq, hend]
    refine ⟨by omega, ?_⟩
    -- the two would touch only if nothing lay between them
    cases v with
    | nil =>
      have := ((apart_middle.mp hap).2.2 hb).1 c (by simp)
      rw [hc] at this
      cases this
    | cons d v =>
      have := le_endOf (w := 8) (endOf 8 R.start u + 8 + c.size + 8 + d.size) v
      rw [endOf]
      omega

/-- `_isixp_heap_check` walks the free blocks and finds nothing. -/
theorem checkLoop_spec (h : Laying R m (l₁ ++ l₂)) (hap : Apart (l₁ ++ l₂)) (hf : l₂.length < fuel) :
    checkLoop R fuel (nextFree 8 (endOf 8 R.start l₁) l₂ 0) (lastFree 8 0 R.start l₁) m = some 0 := by
  induction l₂ generalizing l₁ fuel with
  | nil =>
    obtain ⟨fuel, rfl⟩ : ∃ k, fuel = k + 1 := ⟨fuel - 1, by omega⟩
    rfl
  | cons b l₂ ih =>
    have hassoc : l₁ ++ [b] ++ l₂ = l₁ ++ b :: l₂ := by simp
    have hspot := h.spot
    have h' : Laying R m (l₁ ++ [b] ++ l₂) := by rwa [hassoc]
    have hap' : Apart (l₁ ++ [b] ++ l₂) := by rwa [hassoc]
    have ih := fun k (hk : l₂.length < k) => ih h' hap' hk
    simp only [endOf_snoc] at ih
    cases hb : b.used with
    | true =>
      rw [nextFree, if_pos hb, ← lastFree_snoc_used 0 hb]
      exact ih fuel (by rw [List.length_cons] at hf; omega)
    | false =>
      obtain ⟨fuel, rfl⟩ : ∃ k, fuel = k + 1 := ⟨fuel - 1, by simp at hf; omega⟩
      have hpos := endOf_pos R l₁
      have hlast := last_limit h hb hap
      have hstart := hspot.start_le
      have hle := hspot.le_end
      have hdvd := hspot.dvd
      have hfree : nextFree 8 (endOf 8 R.start l₁) (b :: l₂) 0 = endOf 8 R.start l₁ := by
        rw [nextFree, hb]
        rfl
      rw [hfree, checkLoop, if_neg (by omega), hspot.limit_eq, if_neg (by omega), hspot.size_eq,
        if_neg (by rw [byteAlignment]; omega), if_neg (by omega), if_neg (by omega), if_neg (by omega),
        hspot.next_eq, hb]
      have hrest := ih fuel (by rw [List.length_cons] at hf; omega)
      rwa [lastFree_snoc_free 0 hb] at hrest

end

/-! ## the bodies of the blocks -/

section

variable {R : Region} {m : Mem} {l l₁ l₂ : List Block} {b c : Block} {n s a qp hp x v : Nat}

theorem setNext_outside (h : x < hp ∨ hp + 8 ≤ x) : setNext hp v m x = m x := store_outside (by omega)

theorem setSize_outside (h : x < hp ∨ hp + 8 ≤ x) : setSize hp v m x = m x := store_outside (by omega)

theorem setUsed_outside (h : x < R.heap ∨ R.heap + 12 ≤ x) : setUsed R v m x = m x :=
  store_outside (by omega)

/-- The cell `x` is in the body of the used block at `a`. -/
def InBody (l : List Block) (R : Region) (a : Nat) (c : Block) (x : Nat) : Prop :=
  (a, c) ∈ usedPlaces 8 R.start l ∧ a + 8 ≤ x ∧ x < a + 8 + c.size

theorem Laying.outside_heap (h : Laying R m l) (hx : InBody l R a c x) : x < R.heap ∨ R.heap + 12 ≤ x := by
  have hb := bounds (mem_usedPlaces.mp hx.1).1
  have ha := R.apart
  rw [h.ends] at hb
  have hx' := hx.2
  omega

/-- A body is apart from the header of every block. -/
theorem outside_header (hx : InBody l R a c x) (hq : (qp, b) ∈ place 8 R.start l) : x < qp ∨ qp + 8 ≤ x := by
  have h := eq_or_apart (mem_usedPlaces.mp hx.1).1 hq
  have hx' := hx.2
  omega

section

variable (h : Spot R m l₁ b l₂ qp hp)

include h

theorem Spot.mem : (hp, b) ∈ place 8 R.start (l₁ ++ b :: l₂) :=
  mem_place.mpr ⟨l₁, l₂, rfl, h.hp_eq.symm⟩

theorem Spot.outside_last (hx : InBody (l₁ ++ b :: l₂) R a c x) :
    x < qp ∨ qp + 8 ≤ x := by
  have hheap := h.laying.outside_heap hx
  rcases lastFree_place R l₁ with hq | ⟨d, hd, -⟩
  · rw [h.qp_eq] at hq
    omega
  · rw [h.qp_eq] at hd
    exact outside_header hx (by rw [place_append]; exact List.mem_append_left _ hd)

/-- Taking a block touches no body. -/
theorem Spot.take_outside (hb : b.used = false) (hn : n ≤ b.size) (h8 : 8 ∣ n)
    (hx : InBody (l₁ ++ b :: l₂) R a c x) : takeBlock R n qp hp m x = m x := by
  have hheap := h.laying.outside_heap hx
  have hlast := h.outside_last hx
  have hblock : x < hp ∨ hp + 8 + b.size ≤ x := by
    obtain ⟨hplace, hused⟩ := mem_usedPlaces.mp hx.1
    have hx' := hx.2
    rcases eq_or_apart hplace h.mem with ⟨-, rfl⟩ | hapart
    · rw [hb] at hused
      cases hused
    · omega
  rw [takeBlock_eq h hn h8]
  split
  · rw [setUsed_outside hheap, setNext_outside (by omega), setNext_outside hlast]
  · rw [setUsed_outside hheap, setNext_outside (by omega), setSize_outside (by omega), setNext_outside hlast,
      setSize_outside (by omega), setNext_outside (by omega)]

end

theorem takeIn_outside {q : Nat} (h : x < hp ∨ hp + 8 ≤ x) : takeIn hp q m x = m x := by
  rw [takeIn, setNext_outside h, setSize_outside h]

/-- Putting a block back touches no body. -/
theorem Spot.insert_outside (h : Spot R m l₁ b l₂ qp hp) (hx : InBody (l₁ ++ b :: l₂) R a c x) :
    insertBlock R s qp hp m x = m x := by
  have hheap := h.laying.outside_heap hx
  have hlast := h.outside_last hx
  have hblock := outside_header hx h.mem
  have hlink : linkBlock qp hp m x = m x := by
    rw [linkBlock, setNext_outside hlast, setNext_outside hblock]
  have hnext : ∀ m, Seqfit.mergeNext hp m x = m x := fun m => by
    unfold Seqfit.mergeNext
    split
    · exact takeIn_outside hblock
    · rfl
  have hprev : ∀ m, Seqfit.mergePrev qp hp m x = m x := fun m => by
    unfold Seqfit.mergePrev
    split
    · exact takeIn_outside hlast
    · rfl
  exact (setUsed_outside hheap).trans ((hprev _).trans ((hnext _).trans hlink))

end

/-! ## the layout of a heap -/

/-- The heap is the list of blocks `l`; its used blocks are the live ones. -/
structure Layout (R : Region) (h : Heap) (l : List Block) : Prop extends Laying R h.mem l where
  apart : Apart l
  used_eq : used R h.mem = ((usedPlaces 8 R.start l).map (·.2.size)).sum
  live : h.live.Perm ((usedPlaces 8 R.start l).map (·.1 + 8))

section

variable {R : Region} {h h' : Heap} {m : Mem} {l l₁ l₂ : List Block} {b c : Block} {n a p q x fuel : Nat}

/-- The memory changes in bodies only. -/
theorem Laying.poke (hl : Laying R h.mem l) (hm : ∀ x, (∀ a c, ¬ InBody l R a c x) → m x = h.mem x) :
    Laying R m l ∧ used R m = used R h.mem := by
  have hheap : ∀ x, R.heap ≤ x → x < R.heap + 12 → m x = h.mem x := fun x h₁ h₂ => hm x fun a c hx => by
    have := hl.outside_heap hx
    omega
  have hplace : ∀ y b, (y, b) ∈ place 8 R.start l → ∀ x, y ≤ x → x < y + 8 → m x = h.mem x :=
    fun y b hy x h₁ h₂ => hm x fun a c hx => by
      have := outside_header hx hy
      omega
  refine ⟨⟨hl.ends, hl.sizes, ?_, ?_, ?_⟩, ?_⟩
  · refine hl.laid.congr fun p hp => ⟨?_, ?_⟩
    · exact load_congr fun x h₁ h₂ => hplace p.1 p.2 hp x h₁ (by omega)
    · exact load_congr fun x h₁ h₂ => hplace p.1 p.2 hp x (by omega) (by omega)
  · exact (load_congr fun x h₁ h₂ => hheap x h₁ (by omega)).trans hl.head
  · exact (load_congr fun x h₁ h₂ => hheap x (by omega) (by omega)).trans hl.sentinel
  · exact load_congr fun x h₁ h₂ => hheap x (by omega) (by omega)

theorem Layout.poke (hl : Layout R h l) (hm : ∀ x, (∀ a c, ¬ InBody l R a c x) → m x = h.mem x) :
    Layout R ⟨m, h.live⟩ l where
  toLaying := (hl.toLaying.poke hm).1
  apart := hl.apart
  used_eq := (hl.toLaying.poke hm).2.trans hl.used_eq
  live := hl.live

theorem Layout.mem_live (hl : Layout R h l) : p ∈ h.live ↔ ∃ c, (p - 8, c) ∈ usedPlaces 8 R.start l ∧ 8 ≤ p := by
  rw [hl.live.mem_iff, List.mem_map]
  constructor
  · rintro ⟨⟨a, c⟩, ha, rfl⟩
    exact ⟨c, by simpa using ha, by omega⟩
  · rintro ⟨c, hc, hp⟩
    exact ⟨_, hc, by omega⟩

theorem alignSize_dvd (n : Nat) : 8 ∣ alignSize n := ⟨_, Nat.mul_comm _ _⟩

theorem apart_cut (hb : b.used = false) (hap : Apart (l₁ ++ b :: l₂)) : Apart (l₁ ++ (cut n b ++ l₂)) := by
  obtain ⟨h₁, h₂, hmid⟩ := apart_middle.mp hap
  unfold cut
  split
  · exact apart_middle.mpr ⟨h₁, h₂, fun h => by cases h⟩
  · have hrest : Apart ([] ++ ⟨b.size - 8 - n, false⟩ :: l₂) :=
      apart_middle.mpr ⟨.nil, h₂, fun _ => ⟨fun c hc => (by cases hc), (hmid hb).2⟩⟩
    exact apart_middle.mpr ⟨h₁, hrest, fun h => by cases h⟩

theorem usedPlaces_cut (hn : n ≤ b.size) (h8 : 8 ∣ n) (hs : 8 ∣ b.size) :
    usedPlaces 8 a (cut n b ++ l₂) = (a, ⟨n, true⟩) :: usedPlaces 8 (a + 8 + b.size) l₂ := by
  unfold cut
  split
  · rw [List.singleton_append, usedPlaces_used rfl]
    congr 2
    simp only
    omega
  · rw [List.cons_append, List.singleton_append, usedPlaces_used rfl, usedPlaces_free rfl]
    congr 2
    simp only
    omega

/-- **Allocation**: nothing happens, or a block of the aligned size is live that was not. -/
theorem Layout.alloc (hl : Layout R h l) (n : Nat) (hf : l.length < fuel) :
    ∃ m q l', seqfitAlloc R fuel n h.mem = some (m, q) ∧
      Layout R ⟨m, if q = 0 then h.live else q :: h.live⟩ l' ∧ l'.length ≤ l.length + 1 ∧
      (∀ a c x, InBody l R a c x → m x = h.mem x) ∧
      (∀ p ∈ usedPlaces 8 R.start l, p ∈ usedPlaces 8 R.start l') ∧ (q = 0 → m = h.mem) ∧
      (q ≠ 0 → 8 ≤ q ∧ (q - 8, ⟨alignSize n, true⟩) ∈ usedPlaces 8 R.start l') := by
  have hlay₀ : Laying R h.mem ([] ++ l) := hl.toLaying
  rcases allocLoop_spec (n := alignSize n) hlay₀ hf with hnone | ⟨u, b, w, rfl, hb, hn, hres⟩
  · exact ⟨_, 0, l, hnone, hl, by omega, fun _ _ _ _ => rfl, fun _ hp => hp, fun _ => rfl,
      fun h => absurd rfl h⟩
  · have h8 := alignSize_dvd n
    have hspot := hl.spot
    obtain ⟨hlay, hused⟩ := hspot.take hb hn h8
    have hplaces : usedPlaces 8 R.start (u ++ b :: w) =
        usedPlaces 8 R.start u ++ usedPlaces 8 (endOf 8 R.start u + 8 + b.size) w := by
      rw [usedPlaces_append, usedPlaces_free hb]
    have hplaces' : usedPlaces 8 R.start (u ++ (cut (alignSize n) b ++ w)) = usedPlaces 8 R.start u ++
        (endOf 8 R.start u, ⟨alignSize n, true⟩) :: usedPlaces 8 (endOf 8 R.start u + 8 + b.size) w := by
      rw [usedPlaces_append, usedPlaces_cut hn h8 hspot.dvd]
    have hsum := hl.used_eq
    have hle := sum_usedPlaces_le (w := 8) R.start (u ++ (cut (alignSize n) b ++ w))
    have hfits := R.start_fits
    rw [hlay.ends] at hle
    rw [hplaces, List.map_append, List.sum_append] at hsum
    simp only [hplaces', List.map_append, List.sum_append, List.map_cons, List.sum_cons] at hle
    refine ⟨_, _, _, hres, ⟨hlay, apart_cut hb hl.apart, ?_, ?_⟩, ?_, ?_, ?_, fun h => by omega, ?_⟩
    · simp only [List.nil_append, hused, hplaces', List.map_append, List.sum_append, List.map_cons, List.sum_cons]
      rw [hsum, sizeMod, Nat.mod_eq_of_lt (by omega)]
      omega
    · have hlive := hl.live
      rw [hplaces, List.map_append] at hlive
      rw [if_neg (by omega), hplaces', List.map_append, List.map_cons]
      exact (hlive.cons _).trans List.perm_middle.symm
    · unfold cut
      split
      · simp
      · simp
        omega
    · exact fun a c x hx => hspot.take_outside hb hn h8 hx
    · intro p hp
      rw [hplaces, List.mem_append] at hp
      rw [hplaces', List.mem_append, List.mem_cons]
      tauto
    · exact fun _ => ⟨by omega, by simp [hplaces']⟩

/-- **Release**: a live block is not live any more. -/
theorem Layout.free (hl : Layout R h l) (hp : p ∈ h.live) (hf : l.length < fuel) :
    ∃ m l', seqfitFree R fuel p h.mem = some m ∧ Layout R ⟨m, h.live.erase p⟩ l' ∧
      (∀ a c x, InBody l R a c x → m x = h.mem x) ∧
      (∀ a c, (a, c) ∈ usedPlaces 8 R.start l → a + 8 ≠ p → (a, c) ∈ usedPlaces 8 R.start l') := by
  obtain ⟨b, hmem, hp8⟩ := hl.mem_live.mp hp
  obtain ⟨hplace, hb⟩ := mem_usedPlaces.mp hmem
  obtain ⟨u, w, rfl, hend⟩ := mem_place.mp hplace
  have hspot := hl.spot
  have hloop : seqfitFree R fuel p h.mem =
      some (insertBlock R b.size (lastFree 8 R.heap R.start u) (endOf 8 R.start u) h.mem) := by
    have hlay₀ : Laying R h.mem ([] ++ u ++ b :: w) := hl.toLaying
    have hlen : u.length < fuel := by
      rw [List.length_append] at hf
      omega
    have hloop := freeLoop_spec (s := b.size) hlay₀ hb hlen
    rw [List.nil_append] at hloop
    rw [seqfitFree, if_neg (by omega)]
    simp only [headerSize, hend, hspot.size_eq]
    exact hloop
  obtain ⟨l', hlay, hap, hplaces', hused⟩ := hspot.release hb hl.apart b.size
  have hplaces : usedPlaces 8 R.start (u ++ b :: w) = usedPlaces 8 R.start u ++
      (endOf 8 R.start u, b) :: usedPlaces 8 (endOf 8 R.start u + 8 + b.size) w := by
    rw [usedPlaces_append, usedPlaces_used hb]
  refine ⟨_, l', hloop, ⟨hlay, hap, ?_, ?_⟩, fun a c x hx => hspot.insert_outside hx, ?_⟩
  · have hle := sum_usedPlaces_le (w := 8) R.start (u ++ b :: w)
    have hsum := hl.used_eq
    have hfits := R.start_fits
    rw [hl.ends] at hle
    simp only [hplaces, List.map_append, List.sum_append, List.map_cons, List.sum_cons] at hle hsum
    simp only [hused, hplaces', List.map_append, List.sum_append, hsum]
    rw [sub_eq (by omega) (by rw [sizeMod]; omega)]
    omega
  · have hlive := hl.live
    rw [hplaces, List.map_append, List.map_cons] at hlive
    have herase := (hlive.trans List.perm_middle).erase p
    have hpe : endOf 8 R.start u + 8 = p := by omega
    rw [hpe, List.erase_cons_head] at herase
    rw [hplaces', List.map_append, hpe]
    exact herase
  · intro a c hac hne
    rw [hplaces, List.mem_append, List.mem_cons, Prod.mk.injEq] at hac
    rw [hplaces', List.mem_append]
    rcases hac with hac | ⟨rfl, -⟩ | hac
    · exact .inl hac
    · omega
    · exact .inr hac

/-! ## calls -/

/-- No reallocation asks for so much that `ALIGN_SIZE` wraps. -/
def NoWrap : Op → Prop
  | .realloc p n => p = 0 ∨ n ≤ 0xFFFFFFF8
  | _ => True

instance : DecidablePred NoWrap
  | .realloc .. => inferInstanceAs (Decidable (_ ∨ _))
  | .alloc _ | .free _ | .write .. => isTrue trivial

/-- What a call leaves of the blocks: a block that stays live changes where its
owner writes, and a reallocated one is found in a live block. -/
structure Kept (op : Op) (h h' : Heap) : Prop where
  stays : ∀ p ∈ h.live, p ∈ h'.live → ∀ i < size (p - 8) h.mem, (∀ b, op ≠ .write p i b) →
    h'.mem (p + i) = h.mem (p + i)
  moves : ∀ p n, op = .realloc p n → p ∈ h.live → n ≠ 0 →
    ∃ q ∈ h'.live, ∀ i < min n (size (p - 8) h.mem), h'.mem (q + i) = h.mem (p + i)

theorem le_alignSize (hn : n ≤ 0xFFFFFFF8) : n ≤ alignSize n := by
  unfold alignSize byteAlignment sizeMod
  omega

theorem Laying.size_place (hl : Laying R m l) (hp : (a, c) ∈ place 8 R.start l) : size a m = c.size := by
  obtain ⟨u, v, rfl, rfl⟩ := mem_place.mp hp
  exact hl.block.2.1

theorem Laying.next_used (hl : Laying R m l) (hp : (a, c) ∈ usedPlaces 8 R.start l) : next a m = magic := by
  obtain ⟨hplace, hc⟩ := mem_usedPlaces.mp hp
  obtain ⟨u, v, rfl, rfl⟩ := mem_place.mp hplace
  rw [hl.block.2.2.1, if_pos hc]

section

variable (hl : Layout R h l)

include hl

/-- A byte of a live block is in a body. -/
theorem Layout.inBody (hp : p ∈ h.live) {i : Nat} (hi : i < size (p - 8) h.mem) :
    ∃ c, InBody l R (p - 8) c (p + i) := by
  obtain ⟨c, hc, hp8⟩ := hl.mem_live.mp hp
  rw [hl.size_place (mem_usedPlaces.mp hc).1] at hi
  exact ⟨c, hc, by omega, by omega⟩

theorem Layout.getsize (hp : p ∈ h.live) :
    seqfitHeapGetsize p h.mem = size (p - 8) h.mem := by
  obtain ⟨c, hc, -⟩ := hl.mem_live.mp hp
  rw [seqfitHeapGetsize]
  simp only [headerSize, hl.next_used hc, ne_eq, not_true_eq_false, if_false]

theorem Layout.nodup : h.live.Nodup := by
  rw [hl.live.nodup_iff]
  have hpw := pairwise_place (w := 8) R.start l
  have hsub : (usedPlaces 8 R.start l).Pairwise fun p q => p.1 + 8 ≠ q.1 + 8 :=
    (hpw.imp fun hpq => by omega).filter _
  exact List.pairwise_map.mpr hsub

/-- `seqfit_realloc` of a live block to a larger size. -/
theorem Layout.move (hp : p ∈ h.live) (hn : size (p - 8) h.mem < n) (hw : n ≤ 0xFFFFFFF8)
    (hf : l.length + 1 < fuel) :
    ∃ m q l', seqfitRealloc R fuel p n h.mem = some (m, q) ∧
      Layout R ⟨m, if q = 0 then h.live else q :: h.live.erase p⟩ l' ∧
      (∀ a c x, a + 8 ≠ p → InBody l R a c x → m x = h.mem x) ∧
      (q = 0 → m = h.mem) ∧
      (q ≠ 0 → q ∉ h.live ∧ (q - 8, ⟨alignSize n, true⟩) ∈ usedPlaces 8 R.start l' ∧
        ∀ i < size (p - 8) h.mem, m (q + i) = h.mem (p + i)) := by
  obtain ⟨b, hmem, hp8⟩ := hl.mem_live.mp hp
  obtain ⟨m₁, q, l₁, halloc, hl₁, hlen, hbytes, hmono, hzero, hnew⟩ := hl.alloc n (show l.length < fuel by omega)
  have hrealloc : seqfitRealloc R fuel p n h.mem =
      if q ≠ 0 then (seqfitFree R fuel p (copy q p (size (p - 8) h.mem) m₁)).map fun m => (m, q)
      else some (m₁, q) := by
    rw [seqfitRealloc, if_neg (by omega), if_neg (by omega), hl.getsize hp]
    rw [if_neg (by omega), halloc, Option.bind_some]
  by_cases hq : q = 0
  · rw [if_neg (by simp [hq])] at hrealloc
    rw [if_pos hq] at hl₁
    exact ⟨m₁, q, l₁, hrealloc, by rwa [if_pos hq], fun a c x _ hx => hbytes a c x hx, hzero,
      fun h => absurd hq h⟩
  · rw [if_pos hq] at hrealloc
    rw [if_neg hq] at hl₁
    obtain ⟨hq8, hqmem⟩ := hnew hq
    have hle := le_alignSize hw
    have hfresh : q ∉ h.live := (List.nodup_cons.mp hl₁.nodup).1
    have hl₂ : Layout R ⟨copy q p (size (p - 8) h.mem) m₁, q :: h.live⟩ l₁ := hl₁.poke fun x hx => by
      apply copy_outside
      have hout := hx (q - 8) ⟨alignSize n, true⟩
      unfold InBody at hout
      simp only at hout
      by_contra hin
      exact hout ⟨hqmem, by omega, by omega⟩
    obtain ⟨m₃, l₃, hfree, hl₃, hbytes₃, hstay⟩ :=
      hl₂.free (List.mem_cons_of_mem _ hp) (show l₁.length < fuel by omega)
    have hne : q ≠ p := fun h => hfresh (h ▸ hp)
    rw [hfree] at hrealloc
    refine ⟨m₃, q, l₃, hrealloc, ?_, ?_, fun h => absurd h hq, ?_⟩
    · rw [if_neg hq]
      rwa [List.erase_cons_tail (by simpa using hne)] at hl₃
    · intro a c x hap hx
      have hx₁ : InBody l₁ R a c x := ⟨hmono _ hx.1, hx.2⟩
      rw [hbytes₃ a c x hx₁, ← hbytes a c x hx]
      apply copy_outside
      have hx' := hx.2
      rcases eq_or_apart (mem_usedPlaces.mp hx₁.1).1 (mem_usedPlaces.mp hqmem).1 with ⟨rfl, -⟩ | hapart
      · exact absurd (hl.mem_live.mpr ⟨c, hx.1, hq8⟩) hfresh
      · simp only at hapart
        omega
    · refine fun _ => ⟨hfresh, hstay _ _ hqmem (by omega), fun i hi => ?_⟩
      have hx₁ : InBody l₁ R (q - 8) ⟨alignSize n, true⟩ (q + i) := ⟨hqmem, by omega, by simp only; omega⟩
      obtain ⟨c, hc⟩ := hl.inBody hp hi
      rw [hbytes₃ _ _ _ hx₁, ← hbytes _ _ _ hc]
      exact copy_inside hi

theorem Layout.zero_not_mem : 0 ∉ h.live := fun h0 => by
  obtain ⟨-, -, h8⟩ := hl.mem_live.mp h0
  omega

/-- What bodies keep, live blocks keep. -/
theorem Layout.bytes (hm : ∀ a c x, InBody l R a c x → m x = h.mem x) :
    ∀ p ∈ h.live, ∀ i < size (p - 8) h.mem, m (p + i) = h.mem (p + i) := fun p hp i hi => by
  obtain ⟨c, hc⟩ := hl.inBody hp hi
  exact hm _ c _ hc

theorem Layout.exec_write {i : Nat} {b : UInt8} (hv : (Op.write p i b).valid h) :
    ∃ h' l', Seqfit.exec R fuel h (.write p i b) = some h' ∧ Layout R h' l' ∧ Kept (.write p i b) h h' := by
  obtain ⟨hp, hi⟩ := hv
  obtain ⟨c, hc⟩ := hl.inBody hp hi
  have hother : ∀ x, x ≠ p + i → Function.update h.mem (p + i) b x = h.mem x := fun x hx =>
    Function.update_of_ne hx _ _
  refine ⟨_, l, rfl, hl.poke fun x hx => hother x fun he => hx _ c (he ▸ hc), ?_, fun p n h => by cases h⟩
  intro p' hp' _ i' hi' hne
  apply hother
  intro he
  -- two bodies with a common cell are one block
  obtain ⟨c', hc'⟩ := hl.inBody hp' hi'
  obtain ⟨-, -, h8⟩ := hl.mem_live.mp hp
  obtain ⟨-, -, h8'⟩ := hl.mem_live.mp hp'
  have h₁ := hc.2
  have h₂ := hc'.2
  have hpp : p' = p := by
    rcases eq_or_apart (mem_usedPlaces.mp hc'.1).1 (mem_usedPlaces.mp hc.1).1 with h | h <;> omega
  subst hpp
  exact hne b (by rw [show i' = i by omega])

theorem Layout.exec_realloc (hp : p ∈ h.live) (hw : n ≤ 0xFFFFFFF8)
    (hf : l.length + 1 < fuel) :
    ∃ h' l', Seqfit.exec R fuel h (.realloc p n) = some h' ∧ Layout R h' l' ∧ Kept (.realloc p n) h h' := by
  have hp0 : p ≠ 0 := fun h0 => hl.zero_not_mem (h0 ▸ hp)
  by_cases hn0 : n = 0
  · subst hn0
    obtain ⟨m, l', hfree, hl', hbytes, -⟩ := hl.free hp (show l.length < fuel by omega)
    have hexec : Seqfit.exec R fuel h (.realloc p 0) = some ⟨m, h.live.erase p⟩ := by
      simp [Seqfit.exec, seqfitRealloc, hp0, hfree]
    refine ⟨_, l', hexec, hl', fun p' hp' _ i hi _ => hl.bytes hbytes p' hp' i hi, fun p n he _ hn => ?_⟩
    cases he
    exact absurd rfl hn
  · by_cases hfit : n ≤ size (p - 8) h.mem
    · have hexec : Seqfit.exec R fuel h (.realloc p n) = some ⟨h.mem, p :: h.live.erase p⟩ := by
        simp [Seqfit.exec, seqfitRealloc, hp0, hn0, hl.getsize hp, hfit]
      have hl' : Layout R ⟨h.mem, p :: h.live.erase p⟩ l :=
        ⟨hl.toLaying, hl.apart, hl.used_eq, (List.perm_cons_erase hp).symm.trans hl.live⟩
      refine ⟨_, l, hexec, hl', fun p' _ _ i _ _ => rfl, fun p' n' he _ _ => ?_⟩
      cases he
      exact ⟨p, List.mem_cons_self, fun i _ => rfl⟩
    · obtain ⟨m, q, l', hmove, hl', hbytes, hzero, hcopy⟩ := hl.move hp (by omega) hw hf
      have hexec : Seqfit.exec R fuel h (.realloc p n) =
          some ⟨m, if q = 0 then h.live else q :: h.live.erase p⟩ := by
        simp [Seqfit.exec, hmove, hn0]
      refine ⟨_, l', hexec, hl', fun p' hp' hp'' i hi _ => ?_, fun p' n' he _ _ => ?_⟩
      · by_cases hq : q = 0
        · rw [hzero hq]
        · rw [if_neg hq] at hp''
          have hne : p' ≠ p := by
            rintro rfl
            rcases List.mem_cons.mp hp'' with rfl | hp''
            · exact (hcopy hq).1 hp
            · exact hl.nodup.not_mem_erase hp''
          obtain ⟨c, hc⟩ := hl.inBody hp' hi
          obtain ⟨-, -, h8⟩ := hl.mem_live.mp hp'
          exact hbytes _ c _ (by omega) hc
      · cases he
        by_cases hq : q = 0
        · rw [if_pos hq]
          exact ⟨p, hp, fun i _ => by rw [hzero hq]⟩
        · rw [if_neg hq]
          exact ⟨q, List.mem_cons_self, fun i hi => (hcopy hq).2.2 i (by omega)⟩

/-- **Call**: a call that does not wrap returns, and the heap it leaves is laid out. -/
theorem Layout.exec {op : Op} (hv : op.valid h) (hw : NoWrap op) (hf : l.length + 1 < fuel) :
    ∃ h' l', Seqfit.exec R fuel h op = some h' ∧ Layout R h' l' ∧ Kept op h h' := by
  have h0 := hl.zero_not_mem
  cases op with
  | alloc n =>
    obtain ⟨m, q, l', halloc, hl', -, hbytes, -⟩ := hl.alloc n (show l.length < fuel by omega)
    exact ⟨_, l', by rw [Seqfit.exec, halloc]; rfl, hl', fun p hp _ i hi _ => hl.bytes hbytes p hp i hi,
      fun p n h => by cases h⟩
  | free p =>
    rcases hv with rfl | hp
    · refine ⟨h, l, ?_, hl, fun p hp _ i hi _ => rfl, fun p n h => by cases h⟩
      simp [Seqfit.exec, seqfitFree, List.erase_of_not_mem h0]
    · obtain ⟨m, l', hfree, hl', hbytes, -⟩ := hl.free hp (show l.length < fuel by omega)
      exact ⟨_, l', by rw [Seqfit.exec, hfree]; rfl, hl', fun p hp _ i hi _ => hl.bytes hbytes p hp i hi,
        fun p n h => by cases h⟩
  | write p off b => exact hl.exec_write hv
  | realloc p n =>
    by_cases hp0 : p = 0
    · subst hp0
      obtain ⟨m, q, l', halloc, hl', -, hbytes, -⟩ := hl.alloc n (show l.length < fuel by omega)
      have hexec : Seqfit.exec R fuel h (.realloc 0 n) = some ⟨m, if q = 0 then h.live else q :: h.live⟩ := by
        simp [Seqfit.exec, seqfitRealloc, halloc, List.erase_of_not_mem h0]
      refine ⟨_, l', hexec, hl', fun p hp _ i hi _ => hl.bytes hbytes p hp i hi, fun p n he hp => ?_⟩
      cases he
      exact absurd hp h0
    · exact hl.exec_realloc (hv.1.resolve_left hp0) (hw.resolve_left hp0) hf

end

end

end Isix.Seqfit
