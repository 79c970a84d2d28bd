import Isix.VirtualEeprom

/-!
# Isix.Properties.EepromLog

What the functions of the virtual EEPROM do to a page that holds a log.  A page
`Holds rs` if its slots, from the first one on, are the records `rs` and the rest
of it is erased.  The search from the end gives the newest record, a free slot is
the one behind the last record, and the compaction leaves one record for each
address that has one.  It programs the cells of `compactedPage`, and does no harm if
some of them were programmed by a compaction of the same log before.
-/

namespace Isix.VirtualEeprom

open Flash Memory
open Ring (slice blit)

/-- The geometry: a page holds whole slots behind its header, addresses are below
the mark of a free slot, and neither page is page 0. -/
structure Config.Ok (cfg : Config) : Prop where
  page : 64 ≤ cfg.chip.pageSize
  rest : 2 ≤ cfg.chip.pageSize % 6
  index : cfg.vaMax < 0xFFFF
  pages : 2 * cfg.sector + 3 ≤ cfg.chip.numPages
  fits : cfg.chip.numPages < 2 ^ 32

/-- The number of slots of a page. -/
def Config.slots (cfg : Config) : Nat := cfg.chip.pageSize / 6

/-! ## logs -/

/-- The value of the last record of an address. -/
def newest (rs : List (Nat × Nat)) (a : Nat) : Option Nat := (rs.reverse.find? fun r => r.1 == a).map (·.2)

/-- One record for each address below `n` that has one. -/
def compacted (rs : List (Nat × Nat)) (n : Nat) : List (Nat × Nat) :=
  (List.range n).filterMap fun a => (newest rs a).map (a, ·)

section

variable {rs : List (Nat × Nat)} {a b v n : Nat}

theorem newest_snoc : newest (rs ++ [(b, v)]) a = if b = a then some v else newest rs a := by
  unfold newest
  rw [List.reverse_append, List.reverse_singleton, List.singleton_append, List.find?_cons]
  by_cases h : b = a
  · rw [if_pos h]
    simp [h]
  · rw [if_neg h, show (b == a) = false by simpa using h]

theorem mem_of_newest (h : newest rs a = some v) : (a, v) ∈ rs := by
  obtain ⟨r, hr, rfl⟩ := Option.map_eq_some_iff.mp h
  have hmem := List.mem_of_find?_eq_some hr
  have ha := List.find?_some hr
  rw [List.mem_reverse] at hmem
  rwa [← eq_of_beq ha]

theorem compacted_succ : compacted rs (n + 1) = compacted rs n ++ ((newest rs n).map (n, ·)).toList := by
  unfold compacted
  rw [List.range_succ, List.filterMap_append]
  cases h : newest rs n <;> simp [h]

theorem length_compacted_le (rs : List (Nat × Nat)) (n : Nat) : (compacted rs n).length ≤ n := by
  have h := List.length_filterMap_le (fun a => (newest rs a).map (a, ·)) (List.range n)
  rwa [List.length_range] at h

/-- The compaction loses no address and no value. -/
theorem newest_compacted : newest (compacted rs n) a = if a < n then newest rs a else none := by
  induction n with
  | zero => rfl
  | succ n ih =>
    rw [compacted_succ]
    cases hn : newest rs n with
    | none =>
      rw [Option.map_none, Option.toList_none, List.append_nil, ih]
      by_cases ha : a = n
      · rw [ha, if_neg (Nat.lt_irrefl n), if_pos (Nat.lt_succ_self n), hn]
      · by_cases hlt : a < n
        · rw [if_pos hlt, if_pos (by omega)]
        · rw [if_neg hlt, if_neg (by omega)]
    | some v =>
      rw [Option.map_some, Option.toList_some, newest_snoc, ih]
      by_cases ha : n = a
      · rw [if_pos ha, if_pos (by omega), ← ha, hn]
      · rw [if_neg ha]
        by_cases hlt : a < n
        · rw [if_pos hlt, if_pos (by omega)]
        · rw [if_neg hlt, if_neg (by omega)]

end

/-! ## pages -/

/-- The slots of the page are the records `rs`, and the others are erased. -/
structure Filled (cfg : Config) (page : Mem) (rs : List (Nat × Nat)) : Prop where
  recs : ∀ i r, rs[i]? = some r → load 2 (2 + 6 * i) page = r.1 ∧ load 4 (4 + 6 * i) page = r.2
  blank : ∀ x, 2 + 6 * rs.length ≤ x → x < cfg.chip.pageSize → page x = 0xFF
  room : rs.length ≤ cfg.slots
  addrs : ∀ r ∈ rs, r.1 ≤ cfg.vaMax ∧ r.2 < 2 ^ 32

/-- A page in use. -/
structure Holds (cfg : Config) (page : Mem) (rs : List (Nat × Nat)) : Prop extends Filled cfg page rs where
  header : load 2 0 page = eehdrValid

/-- An erased page. -/
def Blank (cfg : Config) (page : Mem) : Prop := ∀ x < cfg.chip.pageSize, page x = 0xFF

section

variable {cfg : Config} {page : Mem} {rs : List (Nat × Nat)} {a v x n : Nat}

theorem load_erased (h : ∀ i < n, page (a + i) = 0xFF) : load n a page = 256 ^ n - 1 := by
  have hslice : slice a n page = List.replicate n 0xFF := by
    apply List.ext_getElem
    · simp [slice]
    · intro i h₁ h₂
      simp only [slice, List.getElem_map, List.getElem_range, List.getElem_replicate]
      exact h i (by simpa using h₂)
  rw [load, hslice]
  clear h hslice
  induction n with
  | zero => rfl
  | succ n ih =>
    rw [List.replicate_succ, ofBytes, ih, Nat.pow_succ]
    have := Nat.pos_of_ne_zero (Nat.pos_iff_ne_zero.mp (Nat.pow_pos (n := n) (show 0 < 256 by decide)))
    have hff : (0xFF : UInt8).toNat = 255 := rfl
    omega

theorem Config.Ok.slots_le (hc : cfg.Ok) : 6 * cfg.slots + 2 ≤ cfg.chip.pageSize := by
  have := hc.rest
  unfold Config.slots
  omega

theorem Config.Ok.slots_pos (hc : cfg.Ok) : 0 < cfg.slots := by
  have := hc.page
  unfold Config.slots
  omega

/-- One record for each address leaves a slot free. -/
theorem Config.Ok.vaMax_lt (hc : cfg.Ok) : cfg.vaMax + 1 < cfg.slots := by
  have := hc.page
  unfold Config.slots Config.vaMax
  omega

theorem Config.Ok.eaddr_eq (hc : cfg.Ok) : cfg.eaddr = 6 * cfg.slots - 4 := by
  have := hc.slots_pos
  unfold Config.eaddr
  unfold Config.slots at *
  omega

theorem Blank.filled (h : Blank cfg page) : Filled cfg page [] where
  recs := fun i r hr => by simp at hr
  blank := fun x _ hx => h x hx
  room := Nat.zero_le _
  addrs := fun r hr => by cases hr

/-- A slot behind the records is marked as free. -/
theorem Filled.free (h : Filled cfg page rs) (hc : cfg.Ok) (hx : rs.length ≤ n) (hn : n < cfg.slots) :
    load 2 (2 + 6 * n) page = eehdrEmpty := by
  have := hc.slots_le
  exact load_erased fun i hi => h.blank _ (by omega) (by omega)

/-- A record is programmed behind the others. -/
theorem Filled.push (h : Filled cfg page rs) (hc : cfg.Ok) (hroom : rs.length < cfg.slots) (ha : a ≤ cfg.vaMax)
    (hv : v < 2 ^ 32) :
    Filled cfg (cfg.chip.blend (4 + 6 * rs.length) (toBytes 4 v)
      (cfg.chip.blend (2 + 6 * rs.length) (toBytes 2 a) page)) (rs ++ [(a, v)]) := by
  have hslots := hc.slots_le
  have hidx := hc.index
  have hl₂ := length_toBytes 2 a
  have hl₄ := length_toBytes 4 v
  have hfirst : cfg.chip.blend (2 + 6 * rs.length) (toBytes 2 a) page =
      blit (2 + 6 * rs.length) (toBytes 2 a) page :=
    blend_eq_blit (.inr fun i hi => h.blank _ (by omega) (by omega))
  have hsecond : cfg.chip.blend (4 + 6 * rs.length) (toBytes 4 v)
      (blit (2 + 6 * rs.length) (toBytes 2 a) page) =
      blit (4 + 6 * rs.length) (toBytes 4 v) (blit (2 + 6 * rs.length) (toBytes 2 a) page) :=
    blend_eq_blit (.inr fun i hi => by
      rw [Ring.blit_outside (by omega)]
      exact h.blank _ (by omega) (by omega))
  rw [hfirst, hsecond]
  refine ⟨fun i r hr => ?_, fun x hx hx' => ?_, ?_, fun r hr => ?_⟩
  · show load 2 _ (store 4 _ v (store 2 _ a page)) = _ ∧ load 4 _ (store 4 _ v (store 2 _ a page)) = _
    by_cases hi : i < rs.length
    · rw [List.getElem?_append_left hi] at hr
      rw [load_store_disjoint (by omega), load_store_disjoint (by omega), load_store_disjoint (by omega),
        load_store_disjoint (by omega)]
      exact h.recs i r hr
    · rw [List.getElem?_append_right (by omega), List.getElem?_singleton] at hr
      obtain ⟨hi', hr⟩ := Option.ite_none_right_eq_some.mp hr
      cases hr
      rw [show i = rs.length by omega, load_store_disjoint (by omega), load_store_self, load_store_self]
      exact ⟨Nat.mod_eq_of_lt (by omega), Nat.mod_eq_of_lt (by omega)⟩
  · rw [List.length_append, List.length_singleton] at hx
    rw [Ring.blit_outside (by omega), Ring.blit_outside (by omega)]
    exact h.blank x (by omega) hx'
  · rw [List.length_append, List.length_singleton]
    omega
  · rcases List.mem_append.mp hr with hr | hr
    · exact h.addrs r hr
    · rw [List.mem_singleton.mp hr]
      exact ⟨ha, hv⟩

theorem Filled.congr {page' : Mem} (h : Filled cfg page rs) (hc : cfg.Ok)
    (hsame : ∀ x < cfg.chip.pageSize, page' x = page x) : Filled cfg page' rs where
  recs := fun i r hr => by
    have hi := (List.getElem?_eq_some_iff.mp hr).1
    have hroom := h.room
    have hslots := hc.slots_le
    rw [load_congr fun x _ _ => hsame x (by omega), load_congr fun x _ _ => hsame x (by omega)]
    exact h.recs i r hr
  blank := fun x hx hx' => (hsame x hx').trans (h.blank x hx hx')
  room := h.room
  addrs := h.addrs

/-- An erased page in which the records are programmed. -/
def logPage (cfg : Config) (rs : List (Nat × Nat)) : Mem :=
  cfg.chip.blend 2 (rs.flatMap fun r => toBytes 2 r.1 ++ toBytes 4 r.2) fun _ => 0xFF

theorem logPage_low (hx : x < 2) : logPage cfg rs x = 0xFF := blend_outside (.inl hx)

theorem filled_logPage (hc : cfg.Ok) (hroom : rs.length ≤ cfg.slots) (haddrs : ∀ r ∈ rs, r.1 ≤ cfg.vaMax ∧ r.2 < 2 ^ 32) :
    Filled cfg (logPage cfg rs) rs := by
  induction rs using List.reverseRecOn with
  | nil =>
    have hblank : Blank cfg fun _ => 0xFF := fun _ _ => rfl
    exact hblank.filled.congr hc fun x _ => blend_outside (by simp; omega)
  | append_singleton rs r ih =>
    rw [List.length_append, List.length_singleton] at hroom
    have hlast := haddrs r (List.mem_append_right _ List.mem_cons_self)
    have hpush := (ih (by omega) fun r hr => haddrs r (List.mem_append_left _ hr)).push hc (by omega) hlast.1 hlast.2
    have hlen : (rs.flatMap fun r => toBytes 2 r.1 ++ toBytes 4 r.2).length = 6 * rs.length := by
      simp [List.length_flatMap, length_toBytes, Nat.mul_comm]
    have hpage : logPage cfg (rs ++ [r]) = cfg.chip.blend (4 + 6 * rs.length) (toBytes 4 r.2)
        (cfg.chip.blend (2 + 6 * rs.length) (toBytes 2 r.1) (logPage cfg rs)) := by
      rw [logPage, List.flatMap_append, List.flatMap_singleton, ← List.append_assoc, ← blend_append, ← blend_append,
        List.length_append, hlen, length_toBytes, show 2 + (6 * rs.length + 2) = 4 + 6 * rs.length by omega]
      rfl
    rw [hpage]
    exact hpush

/-- The header is programmed. -/
theorem Filled.seal (h : Filled cfg page rs) (h₀ : ∀ x < 2, page x = 0xFF) :
    Holds cfg (cfg.chip.blend eehdrAddress (toBytes 2 eehdrValid) page) rs := by
  have hl := length_toBytes 2 eehdrValid
  have hblit : cfg.chip.blend eehdrAddress (toBytes 2 eehdrValid) page = store 2 0 eehdrValid page :=
    blend_eq_blit (.inr fun i hi => h₀ (0 + i) (by omega))
  rw [hblit]
  refine ⟨⟨fun i r hr => ?_, fun x hx hx' => ?_, h.room, h.addrs⟩, ?_⟩
  · rw [load_store_disjoint (by omega), load_store_disjoint (by omega)]
    exact h.recs i r hr
  · rw [store_outside (by omega)]
    exact h.blank x hx hx'
  · rw [load_store_self]
    rfl

end

/-! ## reading -/

section

variable {cfg : Config} {o : Obj} {c : Cells} {rs : List (Nat × Nat)} {pg addr k fuel : Nat}

theorem peeks_readHalfword {pa : Nat} (hpg : pg < cfg.chip.numPages) (hpa : pa + 2 ≤ cfg.chip.pageSize) :
    Peeks cfg.chip (readHalfword cfg pg pa) o c (.ok (load 2 pa (c pg))) :=
  (peeks_read hpg hpa).bind (.pure _)

theorem peeks_readWord {pa : Nat} (hpg : pg < cfg.chip.numPages) (hpa : pa + 4 ≤ cfg.chip.pageSize) :
    Peeks cfg.chip (readWord cfg pg pa) o c (.ok (load 4 pa (c pg))) :=
  (peeks_read hpg hpa).bind (.pure _)

/-- What a search for `a` returns in the log `rs`. -/
def answer (rs : List (Nat × Nat)) (a : Nat) : Except Int Nat :=
  match newest rs a with
  | some v => .ok v
  | none => .error errnoNotFound

/-- The search of `read` among the first `k` slots. -/
theorem peeks_readLoop (hc : cfg.Ok) (hpg : pg < cfg.chip.numPages) (h : Filled cfg (c pg) rs)
    (ha : addr ≤ cfg.vaMax) (hk : k ≤ cfg.slots) (hf : k < fuel) :
    Peeks cfg.chip (readLoop cfg pg addr fuel (6 * k - 4)) o c (answer (rs.take k) addr) := by
  have hslots := hc.slots_le
  have hidx := hc.index
  induction k generalizing fuel with
  | zero =>
    obtain ⟨fuel, rfl⟩ : ∃ j, fuel = j + 1 := ⟨fuel - 1, by omega⟩
    exact .pure _
  | succ k ih =>
    obtain ⟨fuel, rfl⟩ : ∃ j, fuel = j + 1 := ⟨fuel - 1, by omega⟩
    have ih := ih (by omega) (show k < fuel by omega)
    have hoff : 6 * (k + 1) - 4 = 2 + 6 * k := by omega
    rw [readLoop, if_pos (by omega), hoff]
    refine (peeks_readHalfword hpg (by omega)).bind ?_
    simp only
    rw [show 2 + 6 * k - 6 = 6 * k - 4 by omega, show 2 + 6 * k + 2 = 4 + 6 * k by omega]
    by_cases hlt : k < rs.length
    · obtain ⟨h₂, h₄⟩ := h.recs k rs[k] (List.getElem?_eq_getElem hlt)
      rw [h₂, List.take_succ_eq_append_getElem hlt]
      have hnew : ∀ a, newest (rs.take k ++ [rs[k]]) a = if rs[k].1 = a then some rs[k].2
          else newest (rs.take k) a := fun a => newest_snoc
      unfold answer
      rw [hnew]
      split
      · rename_i he
        refine (peeks_readWord hpg (by omega)).bind ?_
        rw [h₄]
        exact .pure _
      · exact ih
    · have hfree := h.free hc (Nat.le_of_not_lt hlt) hk
      rw [hfree, if_neg (by rw [eehdrEmpty]; omega), List.take_of_length_le (by omega)]
      rwa [List.take_of_length_le (by omega)] at ih

/-- The object has two pages. -/
structure Placed (cfg : Config) (o : Obj) : Prop where
  ne : o.activePage ≠ o.inactivePage
  active_pos : o.activePage ≠ 0
  inactive_pos : o.inactivePage ≠ 0
  active_lt : o.activePage < cfg.chip.numPages
  inactive_lt : o.inactivePage < cfg.chip.numPages

/-- **Reading**: the newest record of the address. -/
theorem Placed.peeks_read (hp : Placed cfg o) (hc : cfg.Ok) (h : Filled cfg (c o.activePage) rs)
    (ha : addr ≤ cfg.vaMax) : Peeks cfg.chip (read cfg addr) o c (answer rs addr) := by
  have hslots := hc.slots_le
  have h₁ := hp.active_pos
  have h₂ := hp.inactive_pos
  refine peeks_getObj.bind ?_
  rw [if_neg (by omega), if_neg (by omega), hc.eaddr_eq]
  have hfuel : cfg.slots < cfg.chip.pageSize := by omega
  have hloop := peeks_readLoop (o := o) hc hp.active_lt h ha (Nat.le_refl _) hfuel
  rwa [List.take_of_length_le h.room] at hloop

/-- What `find_free_slot` returns for `n` records. -/
def freeSlot (cfg : Config) (n : Nat) : Int := if n < cfg.slots then ((2 + 6 * n : Nat) : Int) else errnoNoSpace

theorem peeks_findFreeSlotLoop (hc : cfg.Ok) (hpg : pg < cfg.chip.numPages) (h : Filled cfg (c pg) rs)
    (hk : k ≤ rs.length) (hf : rs.length < fuel + k) :
    Peeks cfg.chip (findFreeSlotLoop cfg pg fuel (2 + 6 * k)) o c (freeSlot cfg rs.length) := by
  have hslots := hc.slots_le
  have hpos := hc.slots_pos
  have hidx := hc.index
  have hroom := h.room
  have headdr := hc.eaddr_eq
  induction fuel generalizing k with
  | zero => omega
  | succ fuel ih =>
    rw [findFreeSlotLoop]
    by_cases hlt : k < rs.length
    · -- a record: its address is not the mark of a free slot
      have hrec := (h.recs k rs[k] (List.getElem?_eq_getElem hlt)).1
      have haddr := (h.addrs rs[k] (List.getElem_mem hlt)).1
      rw [if_pos (by omega)]
      refine (peeks_readHalfword hpg (by omega)).bind ?_
      rw [hrec]
      simp only
      rw [if_neg (by rw [eehdrEmpty]; omega)]
      exact ih (k := k + 1) (by omega) (by omega)
    · have hkeq : k = rs.length := by omega
      subst hkeq
      by_cases hfull : rs.length < cfg.slots
      · rw [if_pos (by omega)]
        refine (peeks_readHalfword hpg (by omega)).bind ?_
        rw [h.free hc (Nat.le_refl _) hfull, freeSlot, if_pos hfull]
        exact .pure _
      · rw [if_neg (by omega), freeSlot, if_neg hfull]
        exact .pure _

/-- **Free slot**: the one behind the last record. -/
theorem Placed.peeks_findFreeSlot (hp : Placed cfg o) (hc : cfg.Ok) (h : Filled cfg (c o.activePage) rs) :
    Peeks cfg.chip (findFreeSlot cfg) o c (freeSlot cfg rs.length) := by
  have hslots := hc.slots_le
  have hroom := h.room
  refine peeks_getObj.bind ?_
  exact peeks_findFreeSlotLoop hc hp.active_lt h (Nat.zero_le _) (by omega)

end

/-! ## writing -/

section

variable {cfg : Config} {o : Obj} {c : Cells} {rs : List (Nat × Nat)} {pg pa a v n va : Nat}

theorem does_writeHalfword :
    Does cfg.chip (writeHalfword cfg pg pa v) o c 2 o [.program pg pa (toBytes 2 v)] :=
  does_write.bind (.pure _)

theorem does_writeWord : Does cfg.chip (writeWord cfg pg pa v) o c 4 o [.program pg pa (toBytes 4 v)] :=
  does_write.bind (.pure _)

theorem does_pageErase : Does cfg.chip (pageErase cfg pg) o c 0 o [.erase pg] :=
  Flash.does_pageErase.bind (.pure _)

/-- The accesses of a record. -/
def recordOps (pg off a v : Nat) : List Op := [.program pg off (toBytes 2 a), .program pg (off + 2) (toBytes 4 v)]

theorem does_writeRecord (hpa : pa < 2 ^ 32) :
    Does cfg.chip (writeRecord cfg pa a v) o c 4 o (recordOps o.activePage pa a v) := by
  have hoff : ((pa : Int) % 2 ^ 32).toNat = pa := by omega
  refine Does.getObj ?_
  simp only [hoff]
  exact does_writeHalfword.bind (by rw [if_pos (by decide)]; exact does_writeWord)

theorem applyAll_recordOps : cfg.chip.applyAll (recordOps pg pa a v) c pg =
    cfg.chip.blend (pa + 2) (toBytes 4 v) (cfg.chip.blend pa (toBytes 2 a) (c pg)) := by
  simp [recordOps, Chip.applyAll, Chip.apply]

theorem inside_recordOps (hpg : pg < cfg.chip.numPages) (hfit : pa + 6 ≤ cfg.chip.pageSize) :
    ∀ op ∈ recordOps pg pa a v, op.Inside cfg.chip := by
  have hl₂ := length_toBytes 2 a
  have hl₄ := length_toBytes 4 v
  intro op hop
  simp only [recordOps, List.mem_cons, List.not_mem_nil, or_false] at hop
  rcases hop with rfl | rfl
  · exact ⟨hpg, by omega⟩
  · exact ⟨hpg, by omega⟩

theorem applyAll_recordOps_other {pg' : Nat} (hne : pg' ≠ pg) : cfg.chip.applyAll (recordOps pg pa a v) c pg' = c pg' := by
  rw [recordOps, applyAll_cons, applyAll_cons, applyAll_nil, apply_program_other hne, apply_program_other hne]

/-- The cells are erased, or programmed as in `T`. -/
def Part (cfg : Config) (T page : Mem) : Prop := ∀ x < cfg.chip.pageSize, page x = 0xFF ∨ page x = T x

/-- The accesses of a compaction before the header is written: cells of the page `pg` are programmed as in `T`. -/
def Copies (cfg : Config) (T : Mem) (pg : Nat) (ops : List Op) : Prop :=
  ∀ op ∈ ops, op.Inside cfg.chip ∧ (op.isRead = true ∨ ∃ off n, op = .program pg off (slice off n T))

theorem Copies.append {T : Mem} {ops ops' : List Op} (h : Copies cfg T pg ops) (h' : Copies cfg T pg ops') :
    Copies cfg T pg (ops ++ ops') := fun op hop => by
  rcases List.mem_append.mp hop with hop | hop
  · exact h op hop
  · exact h' op hop

theorem Copies.other {T : Mem} {ops : List Op} (h : Copies cfg T pg ops) {pg' : Nat} (hne : pg' ≠ pg) :
    cfg.chip.applyAll ops c pg' = c pg' :=
  applyAll_other fun op hop off bs => by
    rcases (h op hop).2 with hr | ⟨off', n, rfl⟩
    · cases op with
      | read pg off n => exact ⟨nofun, nofun⟩
      | program pg off bs => cases hr
      | erase pg => cases hr
    · exact ⟨fun he => hne (by cases he; rfl), nofun⟩

/-- A page that is copied in part stays so. -/
theorem Copies.part {T : Mem} {ops : List Op} (h : Copies cfg T pg ops) (hpart : Part cfg T (c pg)) :
    Part cfg T (cfg.chip.applyAll ops c pg) := by
  induction ops generalizing c with
  | nil => exact hpart
  | cons op ops ih =>
    rw [applyAll_cons]
    refine ih (fun op hop => h op (List.mem_cons_of_mem _ hop)) ?_
    obtain ⟨hin, hr | ⟨off, n, rfl⟩⟩ := h op List.mem_cons_self
    · cases op with
      | read pg off n => exact hpart
      | program pg off bs => cases hr
      | erase pg => cases hr
    · intro x hx
      have hfit : off + (slice off n T).length ≤ cfg.chip.pageSize := hin.2
      rw [Ring.length_slice] at hfit
      rw [apply_program_self, blend_slice fun i hi => hpart (off + i) (by omega)]
      split
      · exact .inr rfl
      · exact hpart x hx

/-- The compacted log in a page of its own. -/
def compactedPage (cfg : Config) (rs : List (Nat × Nat)) : Mem := logPage cfg (compacted rs (cfg.vaMax + 1))

theorem Filled.compactedPage {page : Mem} (h : Filled cfg page rs) (hc : cfg.Ok) :
    Filled cfg (compactedPage cfg rs) (compacted rs (cfg.vaMax + 1)) := by
  have hlen := length_compacted_le rs (cfg.vaMax + 1)
  have hva := hc.vaMax_lt
  refine filled_logPage hc (by omega) fun r hr => ?_
  obtain ⟨b, hb, hnew⟩ := List.mem_filterMap.mp hr
  obtain ⟨w, hw, rfl⟩ := Option.map_eq_some_iff.mp hnew
  exact h.addrs _ (mem_of_newest hw)

/-- The record of an address in the compacted log. -/
theorem compacted_getElem? (hnew : newest rs va = some v) (hlt : va < n) :
    (compacted rs n)[(compacted rs va).length]? = some (va, v) := by
  induction n with
  | zero => omega
  | succ n ih =>
    rw [compacted_succ]
    rcases Nat.lt_or_eq_of_le (Nat.le_of_lt_succ hlt) with hlt | rfl
    · have hget := ih hlt
      rw [List.getElem?_append_left (List.getElem?_eq_some_iff.mp hget).1]
      exact hget
    · rw [List.getElem?_append_right le_rfl, Nat.sub_self, hnew]
      rfl

/-- **Compaction**: the loop leaves the compacted log in the other page, of which a part may have been copied before. -/
theorem Placed.does_sortLoop (hp : Placed cfg o) (hc : cfg.Ok) (h : Filled cfg (c o.activePage) rs)
    (hpart : Part cfg (compactedPage cfg rs) (c o.inactivePage))
    (hdone : ∀ x, 2 ≤ x → x < 2 + 6 * (compacted rs va).length → c o.inactivePage x = compactedPage cfg rs x)
    (hva : va + n = cfg.vaMax + 1) :
    ∃ ops, Does cfg.chip (sortLoop cfg o.inactivePage n va (2 + 6 * (compacted rs va).length)) o c (.ok ()) o ops ∧
      (∀ x, 2 ≤ x → x < 2 + 6 * (compacted rs (va + n)).length →
        cfg.chip.applyAll ops c o.inactivePage x = compactedPage cfg rs x) ∧
      Copies cfg (compactedPage cfg rs) o.inactivePage ops := by
  have hslots := hc.slots_le
  have hva' := hc.vaMax_lt
  induction n generalizing va c with
  | zero => exact ⟨[], .pure _, hdone, fun op hop => by cases hop⟩
  | succ n ih =>
    obtain ⟨ops₁, hread, hops₁⟩ := hp.peeks_read hc h (show va ≤ cfg.vaMax by omega)
    have hcells : cfg.chip.applyAll ops₁ c = c := applyAll_reads fun op hop => (hops₁ op hop).1
    have hcop₁ : Copies cfg (compactedPage cfg rs) o.inactivePage ops₁ :=
      fun op hop => ⟨(hops₁ op hop).2, .inl (hops₁ op hop).1⟩
    cases hnew : newest rs va with
    | none =>
      have hsame : compacted rs (va + 1) = compacted rs va := by simp [compacted_succ, hnew]
      obtain ⟨ops, hloop, hfill, hcop⟩ := ih h hpart (by rwa [hsame]) (by omega)
      refine ⟨ops₁ ++ ops, hread.bind ?_, ?_, hcop₁.append hcop⟩
      · rw [hcells, answer, hnew]
        rw [hsame] at hloop
        exact hloop
      · rwa [applyAll_append, hcells, show va + (n + 1) = va + 1 + n by omega]
    | some v =>
      have hlen := length_compacted_le rs va
      have hsnoc : (compacted rs (va + 1)).length = (compacted rs va).length + 1 := by simp [compacted_succ, hnew]
      obtain ⟨h₂, h₄⟩ := (h.compactedPage hc).recs _ _ (compacted_getElem? hnew (show va < cfg.vaMax + 1 by omega))
      generalize hi : (compacted rs va).length = i at *
      have hb₂ : toBytes 2 va = slice (2 + 6 * i) 2 (compactedPage cfg rs) := by rw [← toBytes_load, h₂]
      have hb₄ : toBytes 4 v = slice (2 + 6 * i + 2) 4 (compactedPage cfg rs) := by
        rw [← toBytes_load, show 2 + 6 * i + 2 = 4 + 6 * i by omega, h₄]
      have hcop₂ : Copies cfg (compactedPage cfg rs) o.inactivePage (recordOps o.inactivePage (2 + 6 * i) va v) := by
        intro op hop
        refine ⟨inside_recordOps hp.inactive_lt (by omega) op hop, .inr ?_⟩
        simp only [recordOps, List.mem_cons, List.not_mem_nil, or_false, hb₂, hb₄] at hop
        exact hop.elim (fun he => ⟨_, _, he⟩) fun he => ⟨_, _, he⟩
      have hdone' : ∀ x, 2 ≤ x → x < 2 + 6 * (compacted rs (va + 1)).length → cfg.chip.applyAll
          (recordOps o.inactivePage (2 + 6 * i) va v) c o.inactivePage x = compactedPage cfg rs x := by
        intro x hx hx'
        rw [hsnoc] at hx'
        rw [applyAll_recordOps, hb₄, hb₂, blend_slice, blend_slice fun j hj => hpart _ (by omega)]
        · -- the cells of the record, and those before it
          split
          · rfl
          · split
            · rfl
            · exact hdone x hx (by omega)
        · intro j hj
          rw [blend_outside (by rw [Ring.length_slice]; omega)]
          exact hpart _ (by omega)
      obtain ⟨ops, hloop, hfill, hcop⟩ := ih (by rwa [hcop₂.other hp.ne]) (hcop₂.part hpart) hdone' (by omega)
      have hsplit : recordOps o.inactivePage (2 + 6 * i) va v ++ ops =
          [.program _ _ (toBytes 2 va)] ++ ([.program _ _ (toBytes 4 v)] ++ ops) := rfl
      refine ⟨ops₁ ++ (recordOps o.inactivePage (2 + 6 * i) va v ++ ops), ?_, ?_, hcop₁.append (hcop₂.append hcop)⟩
      · refine hread.bind ?_
        rw [hcells, answer, hnew, hsplit]
        refine does_writeHalfword.bind ?_
        rw [if_neg (by decide)]
        refine does_writeWord.bind ?_
        rw [if_neg (by decide)]
        rw [hsnoc] at hloop
        exact hloop
      · rwa [applyAll_append, hcells, applyAll_append, show va + (n + 1) = va + 1 + n by omega]

theorem Filled.not_full {page : Mem} (h : Filled cfg page rs) : rs.length < cfg.slots ∨ rs.length = cfg.slots := by
  have := h.room
  omega

theorem Placed.swap (hp : Placed cfg o) : Placed cfg ⟨o.inactivePage, o.activePage⟩ :=
  ⟨hp.ne.symm, hp.inactive_pos, hp.active_pos, hp.inactive_lt, hp.active_lt⟩

/-- The end of a compaction: the new page becomes valid, the old one is erased. -/
def switchOps (o : Obj) : List Op :=
  [.program o.inactivePage eehdrAddress (toBytes 2 eehdrValid), .erase o.activePage]

variable (hp : Placed cfg o) (hc : cfg.Ok) (h : Filled cfg (c o.activePage) rs)

include hp hc h

theorem Placed.does_sortFlash (hB : Part cfg (compactedPage cfg rs) (c o.inactivePage)) :
    ∃ pre, Does cfg.chip (sortFlash cfg) o c 0 ⟨o.inactivePage, o.activePage⟩ (pre ++ switchOps o) ∧
      Filled cfg (cfg.chip.applyAll pre c o.inactivePage) (compacted rs (cfg.vaMax + 1)) ∧
      (∀ x < 2, cfg.chip.applyAll pre c o.inactivePage x = 0xFF) ∧
      Copies cfg (compactedPage cfg rs) o.inactivePage pre := by
  have hpage := hc.page
  have hzero : (compacted rs 0).length = 0 := rfl
  obtain ⟨pre, hloop, hdone, hcop⟩ := hp.does_sortLoop hc h hB (fun x hx hx' => by omega) (Nat.zero_add (cfg.vaMax + 1))
  rw [Nat.zero_add] at hdone
  have hnew := h.compactedPage hc
  have hpart := hcop.part hB
  have hlow : ∀ x < 2, compactedPage cfg rs x = 0xFF := fun x hx => logPage_low hx
  refine ⟨pre, ?_, hnew.congr hc fun x hx => ?_, fun x hx => ?_, hcop⟩
  rotate_left
  · -- what is not programmed is erased in both pages
    rcases hpart x hx with he | he
    · by_cases hx₂ : x < 2
      · rw [he, hlow x hx₂]
      · by_cases hx₆ : x < 2 + 6 * (compacted rs (cfg.vaMax + 1)).length
        · exact hdone x (by omega) hx₆
        · rw [he, hnew.blank x (by omega) hx]
    · exact he
  · have he := hpart x (by omega)
    rwa [hlow x hx, or_self] at he
  refine Does.getObj (hloop.bind (does_writeHalfword.bind ?_))
  rw [if_neg (by decide)]
  exact does_pageErase.bind (does_setObj.bind (.pure _))

/-- What `write` does when there is a free slot. -/
theorem Placed.does_write_free (hroom : rs.length < cfg.slots) (ha : a ≤ cfg.vaMax) :
    ∃ reads, Does cfg.chip (write cfg a v) o c 4 o
        (reads ++ recordOps o.activePage (2 + 6 * rs.length) a v) ∧
      Does cfg.chip (findFreeSlot cfg) o c ((2 + 6 * rs.length : Nat) : Int) o reads ∧
      (∀ op ∈ reads, op.isRead = true) ∧ ∀ op ∈ reads, op.Inside cfg.chip := by
  have h₁ := hp.active_pos
  have h₂ := hp.inactive_pos
  have hslots := hc.slots_le
  have hidx := hc.index
  obtain ⟨reads, hfind, hreads, hin, hcells⟩ := Peeks.exists_ops (hp.peeks_findFreeSlot hc h)
  rw [freeSlot, if_pos hroom] at hfind
  refine ⟨reads, Does.getObj ?_, hfind, hreads, hin⟩
  rw [if_neg (by omega), if_neg (by omega)]
  refine hfind.bind ?_
  rw [if_neg (by omega)]
  exact does_writeRecord (by unfold Config.vaMax at hidx; omega)

/-- What `write` does when the page is full. -/
theorem Placed.does_write_full (hB : Part cfg (compactedPage cfg rs) (c o.inactivePage))
    (hfull : rs.length = cfg.slots) (ha : a ≤ cfg.vaMax) :
    ∃ pre post, Does cfg.chip (write cfg a v) o c
        ((2 + 6 * (compacted rs (cfg.vaMax + 1)).length : Nat) : Int) ⟨o.inactivePage, o.activePage⟩
        (pre ++ switchOps o ++ post) ∧
      Copies cfg (compactedPage cfg rs) o.inactivePage pre ∧
      Filled cfg (cfg.chip.applyAll pre c o.inactivePage) (compacted rs (cfg.vaMax + 1)) ∧
      (∀ x < 2, cfg.chip.applyAll pre c o.inactivePage x = 0xFF) ∧
      (∀ op ∈ post, op.isRead = true) ∧ ∀ op ∈ post, op.Inside cfg.chip := by
  have h₁ := hp.active_pos
  have h₂ := hp.inactive_pos
  obtain ⟨reads, hfind, hreads, hin, hcells⟩ := Peeks.exists_ops (hp.peeks_findFreeSlot hc h)
  rw [freeSlot, if_neg (by omega)] at hfind
  obtain ⟨pre, hsort, hfill, hhead, hcop⟩ := hp.does_sortFlash hc h hB
  -- the new page, once it is valid
  have hseal : cfg.chip.applyAll (pre ++ switchOps o) c o.inactivePage =
      cfg.chip.blend eehdrAddress (toBytes 2 eehdrValid) (cfg.chip.applyAll pre c o.inactivePage) := by
    rw [applyAll_append]
    simp [switchOps, Chip.applyAll, Chip.apply, hp.ne.symm]
  have hnew : Filled cfg (cfg.chip.applyAll (pre ++ switchOps o) c o.inactivePage)
      (compacted rs (cfg.vaMax + 1)) := by
    rw [hseal]
    exact (hfill.seal hhead).toFilled
  obtain ⟨post, hfind', hpost, hin', -⟩ := Peeks.exists_ops (hp.swap.peeks_findFreeSlot hc hnew)
  have hlen := length_compacted_le rs (cfg.vaMax + 1)
  have hva := hc.vaMax_lt
  rw [freeSlot, if_pos (by omega)] at hfind'
  have hcop' : Copies cfg (compactedPage cfg rs) o.inactivePage (reads ++ pre) :=
    Copies.append (fun op hop => ⟨hin op hop, .inl (hreads op hop)⟩) hcop
  have hpre : cfg.chip.applyAll (reads ++ pre) c = cfg.chip.applyAll pre c := by rw [applyAll_append, hcells]
  refine ⟨reads ++ pre, post, ?_, hcop', by rwa [hpre], by rwa [hpre], hpost, hin'⟩
  rw [List.append_assoc, List.append_assoc]
  refine Does.getObj ?_
  rw [if_neg (by omega), if_neg (by omega)]
  refine hfind.bind ?_
  rw [if_pos (by decide), hcells, ← List.append_assoc]
  refine hsort.bind ?_
  rw [if_neg (by decide), ← List.append_nil post]
  refine hfind'.bind ?_
  rw [if_pos (by omega)]
  exact .pure _

end

end Isix.VirtualEeprom
