import Isix.Properties.EepromLog

/-!
# Isix.Properties.Eeprom

The virtual EEPROM over whole runs.  In every state one page holds the log of the
writes; the other one is erased, or a part of the compacted log is in it while the
page in use is full.  A write appends its record; a write that finds the page full
compacts it into the other page, and that is all it does: the value it was called
with is not stored, and the offset of a free slot is returned.

Every cut of a write leaves such a state again.  The compaction that is cut is done
again with the next write, since there is no free slot before.  A cut between the
two parts of a record leaves the address with a value of erased cells.
-/

namespace Isix.VirtualEeprom

open Flash Memory Runs

/-! ## the constructor -/

/-- The page that is preferred when both are valid. -/
def Config.pageA (cfg : Config) : Nat := usub cfg.npages 1

def Config.pageB (cfg : Config) : Nat := usub cfg.npages 2

section

variable {cfg : Config} {o : Obj} {c : Cells} {rs rs' : List (Nat × Nat)}

theorem usub_eq {a b : Nat} (h : b ≤ a) (ha : a < 2 ^ 32) : usub a b = a - b := by
  unfold usub
  omega

theorem Config.Ok.pageA_eq (hc : cfg.Ok) : cfg.pageA = cfg.chip.numPages - 2 * cfg.sector - 1 := by
  have h₁ := hc.pages
  have h₂ := hc.fits
  have hn : cfg.npages = cfg.chip.numPages - 2 * cfg.sector := usub_eq (by omega) h₂
  rw [Config.pageA, hn]
  exact usub_eq (by omega) (by omega)

theorem Config.Ok.pageB_eq (hc : cfg.Ok) : cfg.pageB = cfg.chip.numPages - 2 * cfg.sector - 2 := by
  have h₁ := hc.pages
  have h₂ := hc.fits
  have hn : cfg.npages = cfg.chip.numPages - 2 * cfg.sector := usub_eq (by omega) h₂
  rw [Config.pageB, hn]
  exact usub_eq (by omega) (by omega)

theorem Config.Ok.placed (hc : cfg.Ok) : Placed cfg ⟨cfg.pageA, cfg.pageB⟩ := by
  have h₁ := hc.pages
  have hA := hc.pageA_eq
  have hB := hc.pageB_eq
  constructor <;> simp only <;> omega

/-- The page is marked as valid. -/
def Valid (c : Cells) (pg : Nat) : Prop := load 2 0 (c pg) = eehdrValid

instance (c : Cells) (pg : Nat) : Decidable (Valid c pg) := inferInstanceAs (Decidable (_ = _))

/-- The object the constructor leaves, and the accesses it makes behind the two reads. -/
def constructed (cfg : Config) (c : Cells) : Obj × List Op :=
  if Valid c cfg.pageA then
    (⟨cfg.pageA, cfg.pageB⟩, if Valid c cfg.pageB then [.erase cfg.pageB] else [])
  else if Valid c cfg.pageB then (⟨cfg.pageB, cfg.pageA⟩, [])
  else (⟨cfg.pageA, cfg.pageB⟩,
    [.erase cfg.pageA, .erase cfg.pageB, .program cfg.pageA eehdrAddress (toBytes 2 eehdrValid)])

/-- The two reads of the constructor. -/
def headerReads (cfg : Config) : List Op :=
  [.read cfg.pageA eehdrAddress 2, .read cfg.pageB eehdrAddress 2]

theorem does_readHalfword {pg pa : Nat} :
    Does cfg.chip (readHalfword cfg pg pa) o c (.ok (load 2 pa (c pg))) o [.read pg pa 2] :=
  does_read.bind (.pure _)

theorem does_construct : Does cfg.chip (construct cfg) o c () (constructed cfg c).1
    (headerReads cfg ++ (constructed cfg c).2) := by
  refine does_setObj.bind (does_readHalfword.bind (does_readHalfword.bind ?_))
  have hempty : Does cfg.chip (constructEmpty cfg cfg.npages) ⟨0, 0⟩ c () ⟨cfg.pageA, cfg.pageB⟩
      [.erase cfg.pageA, .erase cfg.pageB, .program cfg.pageA eehdrAddress (toBytes 2 eehdrValid)] := by
    refine does_pageErase.bind ?_
    rw [if_pos (by decide)]
    refine does_pageErase.bind ?_
    rw [if_pos (by decide)]
    refine does_writeHalfword.bind ?_
    rw [if_pos (by decide)]
    exact does_setObj
  show Does cfg.chip (if Valid c cfg.pageA ∧ Valid c cfg.pageB then do
      let res ← pageErase cfg cfg.pageB
      if res < 0 then pure () else constructFrom cfg cfg.npages (load 2 0 (c cfg.pageA)) (load 2 0 (c cfg.pageB))
    else constructFrom cfg cfg.npages (load 2 0 (c cfg.pageA)) (load 2 0 (c cfg.pageB))) ⟨0, 0⟩ c () _ _
  unfold constructed
  by_cases hA : Valid c cfg.pageA
  · rw [if_pos hA]
    by_cases hB : Valid c cfg.pageB
    · rw [if_pos ⟨hA, hB⟩, if_pos hB, ← List.append_nil [Op.erase cfg.pageB]]
      refine does_pageErase.bind ?_
      rw [if_neg (by decide), constructFrom, if_pos (show load 2 0 _ = _ from hA)]
      exact does_setObj
    · rw [if_neg (fun h => hB h.2), if_neg hB, constructFrom, if_pos (show load 2 0 _ = _ from hA)]
      exact does_setObj
  · rw [if_neg (fun h => hA h.1), if_neg hA, constructFrom, if_neg (show ¬ load 2 0 _ = _ from hA)]
    by_cases hB : Valid c cfg.pageB
    · rw [if_pos hB, if_pos (show load 2 0 _ = _ from hB)]
      exact does_setObj
    · rw [if_neg hB, if_neg (show ¬ load 2 0 _ = _ from hB)]
      exact hempty

theorem inside_headerReads (hc : cfg.Ok) : ∀ op ∈ headerReads cfg, op.Inside cfg.chip := by
  have hA := hc.placed.active_lt
  have hB := hc.placed.inactive_lt
  have hpage := hc.page
  intro op hop
  simp only [headerReads, List.mem_cons, List.not_mem_nil, or_false] at hop
  rcases hop with rfl | rfl
  · exact ⟨hA, by rw [eehdrAddress]; omega⟩
  · exact ⟨hB, by rw [eehdrAddress]; omega⟩

theorem inside_constructed (hc : cfg.Ok) : ∀ op ∈ (constructed cfg c).2, op.Inside cfg.chip := by
  have hA := hc.placed.active_lt
  have hB := hc.placed.inactive_lt
  have hpage := hc.page
  have hl := length_toBytes 2 eehdrValid
  intro op hop
  unfold constructed at hop
  split at hop
  · split at hop
    · rw [List.mem_singleton.mp hop]
      exact hB
    · cases hop
  · split at hop
    · cases hop
    · simp only [List.mem_cons, List.not_mem_nil, or_false] at hop
      rcases hop with rfl | rfl | rfl
      · exact hA
      · exact hB
      · exact ⟨hA, by rw [eehdrAddress]; omega⟩

end

/-! ## states -/

/-- The two pages of the object, in either order. -/
def Config.Pages (cfg : Config) (o : Obj) : Prop :=
  o = ⟨cfg.pageA, cfg.pageB⟩ ∨ o = ⟨cfg.pageB, cfg.pageA⟩

/-- The other page is erased, or the log `rs`, which leaves no slot free, is compacted
into it in part. -/
def Spare (cfg : Config) (rs : List (Nat × Nat)) (page : Mem) : Prop :=
  ∀ x < cfg.chip.pageSize, page x = 0xFF ∨ (rs.length = cfg.slots ∧ page x = compactedPage cfg rs x)

/-- The active page holds the log `rs`, which gives every address the value of its
last record, and the other page is a spare one. -/
structure Good (cfg : Config) (s : State) (rs : List (Nat × Nat)) : Prop where
  pages : cfg.Pages s.obj
  holds : Holds cfg (s.cells s.obj.activePage) rs
  spare : Spare cfg rs (s.cells s.obj.inactivePage)
  hist : ∀ a ≤ cfg.vaMax, newest rs a = newest s.hist a
  inside : ∀ op ∈ s.log, op.Inside cfg.chip

section

variable {cfg : Config} {s : State} {o : Obj} {c : Cells} {rs rs' hist : List (Nat × Nat)} {log : List Op}
  {a b v k : Nat}

theorem Config.Pages.placed (h : cfg.Pages o) (hc : cfg.Ok) : Placed cfg o := by
  rcases h with rfl | rfl
  · exact hc.placed
  · exact hc.placed.swap

theorem Config.Pages.swap (h : cfg.Pages o) : cfg.Pages ⟨o.inactivePage, o.activePage⟩ := by
  rcases h with rfl | rfl
  · exact .inr rfl
  · exact .inl rfl

theorem Blank.spare {page : Mem} (h : Blank cfg page) : Spare cfg rs page := fun x hx => .inl (h x hx)

theorem Spare.blank {page : Mem} (h : Spare cfg rs page) (hroom : rs.length < cfg.slots) : Blank cfg page :=
  fun x hx => (h x hx).resolve_right fun hfull => Nat.ne_of_lt hroom hfull.1

theorem Spare.part {page : Mem} (h : Spare cfg rs page) : Part cfg (compactedPage cfg rs) page :=
  fun x hx => (h x hx).imp_right And.right

theorem Part.spare {page : Mem} (h : Part cfg (compactedPage cfg rs) page) (hfull : rs.length = cfg.slots) :
    Spare cfg rs page := fun x hx => (h x hx).imp_right fun he => ⟨hfull, he⟩

theorem Spare.not_valid {pg : Nat} (h : Spare cfg rs (c pg)) (hc : cfg.Ok) : ¬ Valid c pg := by
  have hpage := hc.page
  have hempty : load 2 0 (c pg) = eehdrEmpty := load_erased fun i hi =>
    (h (0 + i) (by omega)).elim id fun he => he.2.trans (logPage_low (by omega))
  unfold Valid
  rw [hempty]
  decide

/-- One valid page is the active one. -/
theorem constructed_one (ho : cfg.Pages o) (h : Valid c o.activePage) (h' : ¬ Valid c o.inactivePage) :
    constructed cfg c = (o, []) := by
  unfold constructed
  rcases ho with rfl | rfl
  · rw [if_pos h, if_neg h']
  · rw [if_neg h', if_pos h]

theorem mount_eq (log : List Op) (hist : List (Nat × Nat)) : mount cfg c log hist =
    ⟨(constructed cfg c).1, cfg.chip.applyAll (constructed cfg c).2 c,
      log ++ (headerReads cfg ++ (constructed cfg c).2), hist⟩ := by
  have h : Does cfg.chip (construct cfg) ⟨0, 0⟩ c () _ _ := does_construct
  unfold mount
  rw [h log]
  rfl

theorem inside_mount (hc : cfg.Ok) (c : Cells) (hist : List (Nat × Nat)) (hlog : ∀ op ∈ log, op.Inside cfg.chip) :
    ∀ op ∈ (mount cfg c log hist).log, op.Inside cfg.chip := by
  rw [mount_eq]
  intro op hop
  rcases List.mem_append.mp hop with hop | hop
  · exact hlog op hop
  · rcases List.mem_append.mp hop with hop | hop
    · exact inside_headerReads hc op hop
    · exact inside_constructed hc op hop

/-- **Mount**: the page in use is found again. -/
theorem good_mount (hc : cfg.Ok) (ho : cfg.Pages o) (h : Holds cfg (c o.activePage) rs)
    (hB : Spare cfg rs (c o.inactivePage)) (hh : ∀ a ≤ cfg.vaMax, newest rs a = newest hist a)
    (hlog : ∀ op ∈ log, op.Inside cfg.chip) : Good cfg (mount cfg c log hist) rs := by
  have hin := inside_mount hc c hist hlog
  have hcon := constructed_one ho h.header (hB.not_valid hc)
  rw [mount_eq] at hin ⊢
  rw [hcon] at hin ⊢
  exact ⟨ho, h, hB, hh, hin⟩

/-- Of two valid pages one is kept. -/
theorem good_mount_both (hc : cfg.Ok) (hA : Holds cfg (c cfg.pageA) rs) (hB : Valid c cfg.pageB)
    (hh : ∀ a ≤ cfg.vaMax, newest rs a = newest hist a) (hlog : ∀ op ∈ log, op.Inside cfg.chip) :
    Good cfg (mount cfg c log hist) rs := by
  have hin := inside_mount hc c hist hlog
  have hcon : constructed cfg c = (⟨cfg.pageA, cfg.pageB⟩, [.erase cfg.pageB]) := by
    unfold constructed
    rw [if_pos (show Valid c cfg.pageA from hA.header), if_pos hB]
  rw [mount_eq] at hin ⊢
  rw [hcon] at hin ⊢
  have hne : cfg.pageA ≠ cfg.pageB := hc.placed.ne
  have h₁ : cfg.chip.applyAll [.erase cfg.pageB] c cfg.pageA = c cfg.pageA := by
    rw [applyAll_cons, applyAll_nil, apply_erase_other hne]
  have h₂ : cfg.chip.applyAll [.erase cfg.pageB] c cfg.pageB = fun _ => 0xFF := by
    rw [applyAll_cons, applyAll_nil, apply_erase_self]
  generalize cfg.chip.applyAll [.erase cfg.pageB] c = c' at h₁ h₂ hin ⊢
  have hkept : Holds cfg (c' cfg.pageA) rs := by rwa [h₁]
  have hblank : Blank cfg (c' cfg.pageB) := by
    rw [h₂]
    exact fun _ _ => rfl
  exact ⟨.inl rfl, hkept, hblank.spare, hh, hin⟩

/-- A new object on a flash that was not used before. -/
theorem good_fresh (hc : cfg.Ok) (hA : ¬ Valid c cfg.pageA) (hB : ¬ Valid c cfg.pageB) :
    Good cfg (mount cfg c [] []) [] := by
  have hnil : ∀ op ∈ ([] : List Op), op.Inside cfg.chip := fun _ h => by cases h
  have hin := inside_mount hc c [] hnil
  have hcon : constructed cfg c = (⟨cfg.pageA, cfg.pageB⟩,
      [.erase cfg.pageA, .erase cfg.pageB, .program cfg.pageA eehdrAddress (toBytes 2 eehdrValid)]) := by
    unfold constructed
    rw [if_neg hA, if_neg hB]
  rw [mount_eq] at hin ⊢
  rw [hcon] at hin ⊢
  have hne : cfg.pageA ≠ cfg.pageB := hc.placed.ne
  have hblank : Blank cfg fun _ => 0xFF := fun _ _ => rfl
  have hnew : Holds cfg (cfg.chip.blend eehdrAddress (toBytes 2 eehdrValid) fun _ => 0xFF) [] :=
    hblank.filled.seal fun _ _ => rfl
  have h₁ : cfg.chip.applyAll [.erase cfg.pageA, .erase cfg.pageB,
      .program cfg.pageA eehdrAddress (toBytes 2 eehdrValid)] c cfg.pageA =
      cfg.chip.blend eehdrAddress (toBytes 2 eehdrValid) fun _ => 0xFF := by
    rw [applyAll_cons, applyAll_cons, applyAll_cons, applyAll_nil, apply_program_self, apply_erase_other hne,
      apply_erase_self]
  have h₂ : cfg.chip.applyAll [.erase cfg.pageA, .erase cfg.pageB,
      .program cfg.pageA eehdrAddress (toBytes 2 eehdrValid)] c cfg.pageB = fun _ => 0xFF := by
    rw [applyAll_cons, applyAll_cons, applyAll_cons, applyAll_nil, apply_program_other hne.symm, apply_erase_self]
  generalize cfg.chip.applyAll [.erase cfg.pageA, .erase cfg.pageB,
    .program cfg.pageA eehdrAddress (toBytes 2 eehdrValid)] c = c' at h₁ h₂ hin ⊢
  rw [← h₁] at hnew
  rw [← h₂] at hblank
  exact ⟨.inl rfl, hnew, hblank.spare, fun a _ => rfl, hin⟩

section

variable (hg : Good cfg s rs)

include hg

/-- **Reading**: what was written last. -/
theorem Good.get (hc : cfg.Ok) (ha : a ≤ cfg.vaMax) : s.get cfg a = answer s.hist a := by
  obtain ⟨ops, hread, -⟩ := ((hg.pages.placed hc).peeks_read hc hg.holds.toFilled ha).eq s.log
  rw [State.get, State.medium, hread, answer, answer, hg.hist a ha]

theorem Good.slotFree (hc : cfg.Ok) : s.slotFree cfg ↔ rs.length < cfg.slots := by
  obtain ⟨ops, hfind, -⟩ := ((hg.pages.placed hc).peeks_findFreeSlot hc hg.holds.toFilled).eq s.log
  rw [State.slotFree, State.medium, hfind]
  simp only [freeSlot]
  split
  · simp [*]
    omega
  · simp [*, errnoNoSpace]

/-- A read leaves the pages alone. -/
theorem Good.read (hc : cfg.Ok) : Good cfg (exec cfg s (.read a)) rs := by
  have hkeep : ∀ ops, (∀ op ∈ ops, op.Inside cfg.chip) → Good cfg ⟨s.obj, s.cells, s.log ++ ops, s.hist⟩ rs :=
    fun ops hops => { hg with inside := fun op hop =>
      (List.mem_append.mp hop).elim (hg.inside op) (hops op) }
  by_cases ha : a ≤ cfg.vaMax
  · obtain ⟨ops, hread, -, hin⟩ := ((hg.pages.placed hc).peeks_read hc hg.holds.toFilled ha).eq s.log
    rw [exec, State.medium, hread]
    exact hkeep ops hin
  · have hp := hg.pages.placed hc
    have h₁ := hp.active_pos
    have h₂ := hp.inactive_pos
    have hread : Peeks cfg.chip (VirtualEeprom.read cfg a) s.obj s.cells (.error errnoVaRange) := by
      refine peeks_getObj.bind ?_
      rw [if_neg (by omega), if_pos (by omega)]
      exact .pure _
    obtain ⟨ops, hread, -, hin⟩ := hread.eq s.log
    rw [exec, State.medium, hread]
    exact hkeep ops hin

/-- An address out of range is refused. -/
theorem Good.does_write_range (hc : cfg.Ok) (ha : cfg.vaMax < a) :
    Does cfg.chip (write cfg a v) s.obj s.cells errnoVaRange s.obj [] := by
  have hp := hg.pages.placed hc
  have h₁ := hp.active_pos
  have h₂ := hp.inactive_pos
  refine Does.getObj ?_
  rw [if_neg (by omega), if_pos ha]
  exact .pure _

/-- The page behind the record of a write. -/
theorem Good.push (hc : cfg.Ok) (hroom : rs.length < cfg.slots) (ha : a ≤ cfg.vaMax)
    (hv : v < 2 ^ 32) :
    Holds cfg (cfg.chip.applyAll (recordOps s.obj.activePage (2 + 6 * rs.length) a v) s.cells s.obj.activePage)
      (rs ++ [(a, v)]) := by
  have hpush := hg.holds.toFilled.push hc hroom ha hv
  rw [applyAll_recordOps, show 2 + 6 * rs.length + 2 = 4 + 6 * rs.length by omega]
  refine ⟨hpush, ?_⟩
  rw [← hg.holds.header]
  exact load_congr fun x _ hx => by rw [blend_outside (by omega), blend_outside (by omega)]

end

theorem answer_snoc : answer (rs ++ [(a, v)]) b = if a = b then .ok v else answer rs b := by
  unfold answer
  rw [newest_snoc]
  by_cases h : a = b
  · rw [if_pos h, if_pos h]
  · rw [if_neg h, if_neg h]

theorem hist_push (hh : ∀ a ≤ cfg.vaMax, newest rs a = newest hist a) :
    ∀ b ≤ cfg.vaMax, newest (rs ++ [(a, v)]) b = newest (hist ++ [(a, v)]) b := fun b hb => by
  rw [newest_snoc, newest_snoc, hh b hb]

theorem hist_compacted (hh : ∀ a ≤ cfg.vaMax, newest rs a = newest hist a) :
    ∀ b ≤ cfg.vaMax, newest (compacted rs (cfg.vaMax + 1)) b = newest hist b := fun b hb => by
  rw [newest_compacted, if_pos (by omega), hh b hb]

/-- A part of the accesses of a write is inside of pages. -/
theorem inside_record (hc : cfg.Ok) (hp : Placed cfg o) (hroom : rs.length < cfg.slots) :
    ∀ op ∈ recordOps o.activePage (2 + 6 * rs.length) a v, op.Inside cfg.chip := fun op hop => by
  have hslots := hc.slots_le
  exact inside_recordOps hp.active_lt (by omega) op hop

/-- **Write**: a free slot takes the record. -/
theorem Good.write_free (hg : Good cfg s rs) (hc : cfg.Ok) (hroom : rs.length < cfg.slots) (ha : a ≤ cfg.vaMax)
    (hv : v < 2 ^ 32) :
    (write cfg a v s.medium).1 = 4 ∧ Good cfg (exec cfg s (.write a v)) (rs ++ [(a, v)]) ∧
      (exec cfg s (.write a v)).hist = s.hist ++ [(a, v)] := by
  have hp := hg.pages.placed hc
  obtain ⟨reads, hdoes, -, hreads, hin⟩ := hp.does_write_free hc hg.holds.toFilled hroom ha
  have hrun := hdoes s.log
  have hcells : cfg.chip.applyAll reads s.cells = s.cells := applyAll_reads hreads
  rw [applyAll_append, hcells] at hrun
  have hexec : exec cfg s (.write a v) = ⟨s.obj,
      cfg.chip.applyAll (recordOps s.obj.activePage (2 + 6 * rs.length) a v) s.cells,
      s.log ++ (reads ++ recordOps s.obj.activePage (2 + 6 * rs.length) a v), s.hist ++ [(a, v)]⟩ := by
    rw [exec, if_pos ⟨ha, (hg.slotFree hc).mpr hroom⟩, State.medium, hrun]
    rfl
  have hpush := hg.push hc hroom ha hv
  rw [hexec]
  refine ⟨by rw [State.medium, hrun], ⟨hg.pages, hpush, ?_, hist_push hg.hist, ?_⟩, rfl⟩
  · show Spare cfg _ (cfg.chip.applyAll _ s.cells s.obj.inactivePage)
    rw [applyAll_recordOps_other hp.ne.symm]
    exact (hg.spare.blank hroom).spare
  · intro op hop
    rcases List.mem_append.mp hop with hop | hop
    · exact hg.inside op hop
    · rcases List.mem_append.mp hop with hop | hop
      · exact hin op hop
      · exact inside_record hc hp hroom op hop

theorem inside_switchOps (hc : cfg.Ok) (hp : Placed cfg o) : ∀ op ∈ switchOps o, op.Inside cfg.chip := by
  have hpage := hc.page
  have hl := length_toBytes 2 eehdrValid
  intro op hop
  simp only [switchOps, List.mem_cons, List.not_mem_nil, or_false] at hop
  rcases hop with rfl | rfl
  · exact ⟨hp.inactive_lt, by rw [eehdrAddress]; omega⟩
  · exact hp.active_lt

/-- The pages behind a compaction. -/
theorem switched {pre : List Op} (hp : Placed cfg o)
    (hfill : Filled cfg (cfg.chip.applyAll pre c o.inactivePage) rs)
    (hhead : ∀ x < 2, cfg.chip.applyAll pre c o.inactivePage x = 0xFF) :
    Holds cfg (cfg.chip.applyAll (pre ++ switchOps o) c o.inactivePage) rs ∧
      Blank cfg (cfg.chip.applyAll (pre ++ switchOps o) c o.activePage) := by
  rw [applyAll_append, switchOps, applyAll_cons, applyAll_cons, applyAll_nil, apply_erase_self,
    apply_erase_other hp.ne.symm, apply_program_self]
  exact ⟨hfill.seal hhead, fun _ _ => rfl⟩

/-- **Write to a full page**: the log is compacted into the other page; the value
is not stored. -/
theorem Good.write_full (hg : Good cfg s rs) (hc : cfg.Ok) (hfull : rs.length = cfg.slots) (ha : a ≤ cfg.vaMax) :
    0 < (write cfg a v s.medium).1 ∧
      Good cfg (exec cfg s (.write a v)) (compacted rs (cfg.vaMax + 1)) ∧
      (exec cfg s (.write a v)).hist = s.hist := by
  have hp := hg.pages.placed hc
  obtain ⟨pre, post, hdoes, hcop, hfill, hhead, hpost, hin⟩ :=
    hp.does_write_full hc hg.holds.toFilled hg.spare.part hfull ha
  have hrun := hdoes s.log
  have hcells : cfg.chip.applyAll (pre ++ switchOps s.obj ++ post) s.cells =
      cfg.chip.applyAll (pre ++ switchOps s.obj) s.cells := by
    rw [applyAll_append, applyAll_reads hpost]
  rw [hcells] at hrun
  have hexec : exec cfg s (.write a v) = ⟨⟨s.obj.inactivePage, s.obj.activePage⟩,
      cfg.chip.applyAll (pre ++ switchOps s.obj) s.cells,
      s.log ++ (pre ++ switchOps s.obj ++ post), s.hist⟩ := by
    have hnot : ¬ (a ≤ cfg.vaMax ∧ s.slotFree cfg) := fun h => by
      have := (hg.slotFree hc).mp h.2
      omega
    rw [exec, if_neg hnot, State.medium, hrun]
    rfl
  obtain ⟨hnew, hold⟩ := switched hp hfill hhead
  rw [hexec]
  refine ⟨?_, ⟨hg.pages.swap, hnew, hold.spare, hist_compacted hg.hist, ?_⟩, rfl⟩
  · rw [State.medium, hrun]
    omega
  · intro op hop
    rcases List.mem_append.mp hop with hop | hop
    · exact hg.inside op hop
    · rcases List.mem_append.mp hop with hop | hop
      · rcases List.mem_append.mp hop with hop | hop
        · exact (hcop op hop).1
        · exact inside_switchOps hc hp op hop
      · exact hin op hop

/-! ## cuts -/

/-- The cut falls between the address and the value of a record: one access behind
the search for its slot. -/
def Torn (cfg : Config) (s : State) (k : Nat) : Prop := s.slotFree cfg ∧ k = (s.search cfg).length + 1

instance (cfg : Config) (s : State) (k : Nat) : Decidable (Torn cfg s k) := inferInstanceAs (Decidable (_ ∧ _))

theorem Does.ops_eq {w : Int} {o' : Obj} {ops : List Op}
    (h : Does cfg.chip (write cfg a v) s.obj s.cells w o' ops) : s.ops cfg a v = ops := by
  rw [State.ops, State.medium, h s.log]
  exact List.drop_left

theorem Does.search_eq {w : Int} {o' : Obj} {ops : List Op}
    (h : Does cfg.chip (findFreeSlot cfg) s.obj s.cells w o' ops) : s.search cfg = ops := by
  rw [State.search, State.medium, h s.log]
  exact List.drop_left

/-- What a cut leaves of the record behind `n` reads. -/
theorem recordOf_take {reads : List Op} {pg off : Nat} (hreads : ∀ op ∈ reads, op.isRead = true) :
    recordOf ((reads ++ recordOps pg off a v).take k) a v = if k ≤ reads.length then [] else
      if k = reads.length + 1 then [(a, 2 ^ 32 - 1)] else [(a, v)] := by
  have hnone : ∀ l : List Op, (∀ op ∈ l, op.isRead = true) → l.filter (fun op => !op.isRead) = [] := fun l hl =>
    List.filter_eq_nil_iff.mpr fun op hop => by simp [hl op hop]
  unfold recordOf
  by_cases hk : k ≤ reads.length
  · rw [if_pos hk, List.take_append_of_le_length hk, hnone _ fun op hop => hreads op (List.mem_of_mem_take hop)]
    rfl
  · obtain ⟨j, rfl⟩ : ∃ j, k = reads.length + (j + 1) := ⟨k - reads.length - 1, by omega⟩
    rw [if_neg hk, List.take_length_add_append, List.filter_append, hnone _ hreads]
    cases j with
    | zero => simp [recordOps, Op.isRead]
    | succ j =>
      rw [if_neg (by omega)]
      simp [recordOps, Op.isRead]

/-- The log behind a cut. -/
def cutHist (cfg : Config) (s : State) (k a v : Nat) : List (Nat × Nat) :=
  if a ≤ cfg.vaMax ∧ s.slotFree cfg then s.hist ++ recordOf ((s.ops cfg a v).take k) a v else s.hist

theorem exec_crash {ops : List Op} (h : s.ops cfg a v = ops) : exec cfg s (.crash k a v) =
    mount cfg (cfg.chip.applyAll (ops.take k) s.cells) (s.log ++ ops.take k) (cutHist cfg s k a v) := by
  rw [exec, cutHist, h]

section

variable (hg : Good cfg s rs)

include hg

theorem inside_take {ops : List Op} (hin : ∀ op ∈ ops, op.Inside cfg.chip) :
    ∀ op ∈ s.log ++ ops.take k, op.Inside cfg.chip := fun op hop =>
  (List.mem_append.mp hop).elim (hg.inside op) fun hop => hin op (List.mem_of_mem_take hop)

/-- The address of a record without its value reads as all ones. -/
theorem Good.torn (hc : cfg.Ok) (hroom : rs.length < cfg.slots) (ha : a ≤ cfg.vaMax) :
    Holds cfg (cfg.chip.applyAll [.program s.obj.activePage (2 + 6 * rs.length) (toBytes 2 a)] s.cells
      s.obj.activePage) (rs ++ [(a, 2 ^ 32 - 1)]) := by
  have hslots := hc.slots_le
  have hl := length_toBytes 2 a
  have hpush := hg.push hc hroom ha (show 2 ^ 32 - 1 < 2 ^ 32 by decide)
  rw [applyAll_recordOps] at hpush
  rw [applyAll_cons, applyAll_nil, apply_program_self]
  -- programming ones into erased cells is programming nothing
  have hnop : cfg.chip.blend (2 + 6 * rs.length + 2) (toBytes 4 (2 ^ 32 - 1))
      (cfg.chip.blend (2 + 6 * rs.length) (toBytes 2 a) (s.cells s.obj.activePage)) =
      cfg.chip.blend (2 + 6 * rs.length) (toBytes 2 a) (s.cells s.obj.activePage) := by
    have herased : ∀ i < 4, cfg.chip.blend (2 + 6 * rs.length) (toBytes 2 a) (s.cells s.obj.activePage)
        (2 + 6 * rs.length + 2 + i) = 0xFF := fun i hi => by
      rw [blend_outside (by omega)]
      exact hg.holds.blank _ (by omega) (by omega)
    rw [blend_eq_blit (.inr fun i hi => herased i (by rwa [length_toBytes] at hi))]
    have hones : toBytes 4 (2 ^ 32 - 1) = List.replicate 4 0xFF := rfl
    rw [hones]
    apply blit_same
    intro i hi
    rw [List.length_replicate] at hi
    rw [herased i hi, List.getElem_replicate]
  rwa [hnop] at hpush

/-- A cut of a write that has a free slot: the record is there, is torn, or is not there. -/
theorem Good.crash_free (hc : cfg.Ok) (hroom : rs.length < cfg.slots) (ha : a ≤ cfg.vaMax) (hv : v < 2 ^ 32) :
    ∃ rs', Good cfg (exec cfg s (.crash k a v)) rs' := by
  have hp := hg.pages.placed hc
  obtain ⟨reads, hdoes, -, hreads, hin⟩ := hp.does_write_free (v := v) hc hg.holds.toFilled hroom ha
  have hops := Does.ops_eq hdoes
  have hinall : ∀ op ∈ reads ++ recordOps s.obj.activePage (2 + 6 * rs.length) a v, op.Inside cfg.chip :=
    fun op hop => (List.mem_append.mp hop).elim (hin op) (inside_record hc hp hroom op)
  have hlog := inside_take (k := k) hg hinall
  have hblank := hg.spare.blank hroom
  have hcut : cutHist cfg s k a v = s.hist ++ if k ≤ reads.length then [] else
      if k = reads.length + 1 then [(a, 2 ^ 32 - 1)] else [(a, v)] := by
    rw [cutHist, if_pos ⟨ha, (hg.slotFree hc).mpr hroom⟩, hops, recordOf_take hreads]
  rw [exec_crash hops, hcut]
  by_cases hk : k ≤ reads.length
  · rw [if_pos hk, List.append_nil, applyAll_reads fun op hop => hreads op (List.mem_of_mem_take
      (List.take_append_of_le_length hk ▸ hop))]
    exact ⟨rs, good_mount hc hg.pages hg.holds hg.spare hg.hist hlog⟩
  · obtain ⟨j, rfl⟩ : ∃ j, k = reads.length + (j + 1) := ⟨k - reads.length - 1, by omega⟩
    rw [if_neg hk]
    rw [List.take_length_add_append] at hlog ⊢
    rw [applyAll_append, applyAll_reads hreads]
    cases j with
    | zero =>
      rw [if_pos rfl]
      refine ⟨_, good_mount hc hg.pages (hg.torn hc hroom ha) ?_ (hist_push hg.hist) hlog⟩
      show Spare cfg _ (cfg.chip.applyAll [.program s.obj.activePage _ _] s.cells s.obj.inactivePage)
      rw [applyAll_cons, applyAll_nil, apply_program_other hp.ne.symm]
      exact hblank.spare
    | succ j =>
      rw [if_neg (by omega)]
      rw [List.take_of_length_le (show (recordOps s.obj.activePage (2 + 6 * rs.length) a v).length ≤ j + 1 + 1 by
        simp [recordOps])] at hlog ⊢
      refine ⟨_, good_mount hc hg.pages (hg.push hc hroom ha hv) ?_ (hist_push hg.hist) hlog⟩
      rw [applyAll_recordOps_other hp.ne.symm]
      exact hblank.spare

/-- A cut of a write that finds the page full: the log is there, as it was or compacted. -/
theorem Good.crash_full (hc : cfg.Ok) (hfull : rs.length = cfg.slots) (ha : a ≤ cfg.vaMax) :
    ∃ rs', Good cfg (exec cfg s (.crash k a v)) rs' := by
  have hp := hg.pages.placed hc
  obtain ⟨pre, post, hdoes, hcop, hfill, hhead, hpost, hin⟩ :=
    hp.does_write_full hc hg.holds.toFilled hg.spare.part hfull ha
  have hops := Does.ops_eq hdoes
  have hinall : ∀ op ∈ pre ++ switchOps s.obj ++ post, op.Inside cfg.chip := fun op hop => by
    rcases List.mem_append.mp hop with hop | hop
    · exact (List.mem_append.mp hop).elim (fun h => (hcop op h).1) (inside_switchOps hc hp op)
    · exact hin op hop
  have hcut : cutHist cfg s k a v = s.hist := if_neg fun h => by
    have := (hg.slotFree hc).mp h.2
    omega
  rw [exec_crash hops, hcut]
  by_cases hk : k ≤ pre.length
  · -- records are copied, but the page is not valid yet
    have htake : (pre ++ switchOps s.obj ++ post).take k = pre.take k := by
      rw [List.append_assoc, List.take_append_of_le_length hk]
    have hcop' : Copies cfg (compactedPage cfg rs) s.obj.inactivePage (pre.take k) :=
      fun op hop => hcop op (List.mem_of_mem_take hop)
    have hlog := inside_take (k := k) hg hinall
    rw [htake] at hlog ⊢
    refine ⟨rs, good_mount hc hg.pages ?_ ((hcop'.part hg.spare.part).spare hfull) hg.hist hlog⟩
    rw [hcop'.other hp.ne]
    exact hg.holds
  · obtain ⟨j, rfl⟩ : ∃ j, k = pre.length + (j + 1) := ⟨k - pre.length - 1, by omega⟩
    have hlog := inside_take (k := pre.length + (j + 1)) hg hinall
    have htake : (pre ++ switchOps s.obj ++ post).take (pre.length + (j + 1)) =
        pre ++ .program s.obj.inactivePage eehdrAddress (toBytes 2 eehdrValid) ::
          (Op.erase s.obj.activePage :: post).take j := by
      rw [List.append_assoc, List.take_length_add_append]
      rfl
    cases j with
    | zero =>
      rw [htake, List.take_zero] at hlog ⊢
      have hboth : cfg.chip.applyAll
          (pre ++ [.program s.obj.inactivePage eehdrAddress (toBytes 2 eehdrValid)]) s.cells s.obj.activePage =
          s.cells s.obj.activePage := by
        rw [applyAll_append, applyAll_cons, applyAll_nil, apply_program_other hp.ne, hcop.other hp.ne]
      have hnew : Holds cfg (cfg.chip.applyAll
          (pre ++ [.program s.obj.inactivePage eehdrAddress (toBytes 2 eehdrValid)]) s.cells s.obj.inactivePage)
          (compacted rs (cfg.vaMax + 1)) := by
        rw [applyAll_append, applyAll_cons, applyAll_nil, apply_program_self]
        exact hfill.seal hhead
      have hold := hg.holds
      rw [← hboth] at hold
      -- both pages are valid and say the same; which one is kept depends on their order
      generalize cfg.chip.applyAll _ s.cells = c' at hnew hold ⊢
      rcases hg.pages with ho | ho
      · rw [ho] at hnew hold
        exact ⟨rs, good_mount_both hc hold hnew.header hg.hist hlog⟩
      · rw [ho] at hnew hold
        exact ⟨_, good_mount_both hc hnew hold.header (hist_compacted hg.hist) hlog⟩
    | succ j =>
      have hcells : cfg.chip.applyAll ((pre ++ switchOps s.obj ++ post).take (pre.length + (j + 1 + 1))) s.cells =
          cfg.chip.applyAll (pre ++ switchOps s.obj) s.cells := by
        rw [htake, List.take_succ_cons, switchOps, applyAll_append, applyAll_append, applyAll_cons, applyAll_cons,
          applyAll_reads fun op hop => hpost op (List.mem_of_mem_take hop)]
        rfl
      obtain ⟨hnew, hold⟩ := switched hp hfill hhead
      rw [hcells]
      exact ⟨_, good_mount hc hg.pages.swap hnew hold.spare (hist_compacted hg.hist) hlog⟩

/-- **Cut**: a power failure during a write leaves a log again. -/
theorem Good.crash (hc : cfg.Ok) (hv : v < 2 ^ 32) : ∃ rs', Good cfg (exec cfg s (.crash k a v)) rs' := by
  by_cases ha : a ≤ cfg.vaMax
  · rcases hg.holds.not_full with hroom | hfull
    · exact hg.crash_free hc hroom ha hv
    · exact hg.crash_full hc hfull ha
  · have hops := Does.ops_eq (hg.does_write_range (v := v) hc (Nat.lt_of_not_le ha))
    rw [exec_crash hops, cutHist, if_neg fun h => ha h.1, List.take_nil, applyAll_nil, List.append_nil]
    exact ⟨rs, good_mount hc hg.pages hg.holds hg.spare hg.hist hg.inside⟩

/-- What the address reads as behind a cut. -/
theorem Good.answer_cutHist (hc : cfg.Ok) (ha : a ≤ cfg.vaMax) :
    answer (cutHist cfg s k a v) a = answer s.hist a ∧ ¬ Torn cfg s k ∨
      answer (cutHist cfg s k a v) a = .ok v ∧ ¬ Torn cfg s k ∨
      answer (cutHist cfg s k a v) a = .ok (2 ^ 32 - 1) ∧ Torn cfg s k := by
  rcases hg.holds.not_full with hroom | hfull
  · obtain ⟨reads, hdoes, hfind, hreads, -⟩ := (hg.pages.placed hc).does_write_free (v := v) hc hg.holds.toFilled hroom ha
    have hfree := (hg.slotFree hc).mpr hroom
    rw [cutHist, if_pos ⟨ha, hfree⟩, Does.ops_eq hdoes, recordOf_take hreads, Torn, Does.search_eq hfind]
    by_cases hk : k ≤ reads.length
    · rw [if_pos hk, List.append_nil]
      exact .inl ⟨rfl, fun h => by omega⟩
    · rw [if_neg hk]
      by_cases hk₁ : k = reads.length + 1
      · rw [if_pos hk₁, answer_snoc, if_pos rfl]
        exact .inr (.inr ⟨rfl, hfree, hk₁⟩)
      · rw [if_neg hk₁, answer_snoc, if_pos rfl]
        exact .inr (.inl ⟨rfl, fun h => hk₁ h.2⟩)
  · have hnot : ¬ s.slotFree cfg := fun h => by
      have := (hg.slotFree hc).mp h
      omega
    rw [cutHist, if_neg fun h => hnot h.2]
    exact .inl ⟨rfl, fun h => hnot h.1⟩

end

/-! ## runs -/

/-- A write finds a free slot next time. -/
theorem Good.compacted_free (hc : cfg.Ok) (hg : Good cfg s (compacted rs (cfg.vaMax + 1))) : s.slotFree cfg := by
  have hlen := length_compacted_le rs (cfg.vaMax + 1)
  have hva := hc.vaMax_lt
  exact (hg.slotFree hc).mpr (by omega)

end

/-- The EEPROM is a map from addresses to values: a read gives the last value that
was stored, a write that finds a free slot stores its value and nothing else, a
write that does not find one changes no address and makes room, none of them
fails, and all accesses are inside of pages. -/
structure Serves (cfg : Config) (s : State) : Prop where
  reads : ∀ a ≤ cfg.vaMax, s.get cfg a = answer s.hist a
  writes : ∀ a v, a ≤ cfg.vaMax → v < 2 ^ 32 → s.slotFree cfg →
    0 ≤ (write cfg a v s.medium).1 ∧ (exec cfg s (.write a v)).get cfg a = .ok v ∧
      ∀ b ≤ cfg.vaMax, b ≠ a → (exec cfg s (.write a v)).get cfg b = s.get cfg b
  compacts : ∀ a v, a ≤ cfg.vaMax → v < 2 ^ 32 → ¬ s.slotFree cfg →
    0 ≤ (write cfg a v s.medium).1 ∧ (exec cfg s (.write a v)).slotFree cfg ∧
      ∀ b ≤ cfg.vaMax, (exec cfg s (.write a v)).get cfg b = s.get cfg b
  inside : ∀ op ∈ s.log, op.Inside cfg.chip

/-- A call with arguments of its types; a power failure at a point in `C`. -/
def Act.Valid (C : State → Nat → Nat → Nat → Prop) (s : State) : Act → Prop
  | .read addr => addr < 2 ^ 32
  | .write addr value => addr < 2 ^ 32 ∧ value < 2 ^ 32
  | .construct => True
  | .crash k addr value => addr < 2 ^ 32 ∧ value < 2 ^ 32 ∧ C s k addr value

def Step (cfg : Config) (C : State → Nat → Nat → Nat → Prop) (act : Act) (s s' : State) : Prop :=
  act.Valid C s ∧ exec cfg s act = s'

instance (C : State → Nat → Nat → Nat → Prop) [∀ s k a v, Decidable (C s k a v)] (s : State) (act : Act) :
    Decidable (act.Valid C s) := by
  unfold Act.Valid
  split <;> infer_instance

/-- `Step`, by evaluation. -/
def step? (cfg : Config) (C : State → Nat → Nat → Nat → Prop) [∀ s k a v, Decidable (C s k a v)] (act : Act)
    (s : State) : Option State := if act.Valid C s then some (exec cfg s act) else none

theorem step_of_step? (cfg : Config) (C : State → Nat → Nat → Nat → Prop) [∀ s k a v, Decidable (C s k a v)]
    (act : Act) (s s' : State) (h : step? cfg C act s = some s') : Step cfg C act s s' := by
  obtain ⟨hv, he⟩ := Option.ite_none_right_eq_some.mp h
  exact ⟨hv, Option.some.inj he⟩

section

variable {cfg : Config} {s s' : State} {c : Cells} {rs : List (Nat × Nat)} {a v k : Nat} {act : Act}
  {C : State → Nat → Nat → Nat → Prop}

theorem Good.serves (hg : Good cfg s rs) (hc : cfg.Ok) : Serves cfg s where
  reads := fun a ha => hg.get hc ha
  writes := fun a v ha hv hfree => by
    obtain ⟨hcode, hgood, hhist⟩ := hg.write_free hc ((hg.slotFree hc).mp hfree) ha hv
    refine ⟨by rw [hcode]; decide, ?_, fun b hb hne => ?_⟩
    · rw [hgood.get hc ha, hhist, answer_snoc, if_pos rfl]
    · rw [hgood.get hc hb, hhist, answer_snoc, if_neg (Ne.symm hne), hg.get hc hb]
  compacts := fun a v ha _ hfull => by
    have hlen := hg.holds.not_full.resolve_left fun h => hfull ((hg.slotFree hc).mpr h)
    obtain ⟨hcode, hgood, hhist⟩ := hg.write_full hc hlen ha
    refine ⟨Int.le_of_lt hcode, hgood.compacted_free hc, fun b hb => ?_⟩
    rw [hgood.get hc hb, hhist, hg.get hc hb]
  inside := hg.inside

/-- A step leaves one page with the log. -/
theorem Good.step (hg : Good cfg s rs) (hc : cfg.Ok) (hs : Step cfg C act s s') : ∃ rs', Good cfg s' rs' := by
  obtain ⟨hvalid, rfl⟩ := hs
  cases act with
  | read a => exact ⟨rs, hg.read hc⟩
  | write a v =>
    by_cases ha : a ≤ cfg.vaMax
    · rcases hg.holds.not_full with hroom | hfull
      · exact ⟨_, (hg.write_free hc hroom ha hvalid.2).2.1⟩
      · exact ⟨_, (hg.write_full hc hfull ha).2.1⟩
    · have hrun := hg.does_write_range (v := v) hc (Nat.lt_of_not_le ha) s.log
      have hexec : exec cfg s (.write a v) = s := by
        rw [exec, if_neg (fun h => ha h.1), State.medium, hrun, applyAll_nil, List.append_nil]
        rfl
      exact ⟨rs, by rwa [hexec]⟩
  | construct => exact ⟨rs, good_mount hc hg.pages hg.holds hg.spare hg.hist hg.inside⟩
  | crash k a v => exact hg.crash hc hvalid.2.1

theorem good_run (hc : cfg.Ok) (hA : ¬ Valid c cfg.pageA) (hB : ¬ Valid c cfg.pageB)
    (hr : Run (Step cfg C) (mount cfg c [] []) s) : ∃ rs, Good cfg s rs :=
  hr.keeps (P := fun s => ∃ rs, Good cfg s rs) (fun _ _ _ ⟨_, hg⟩ hs => hg.step hc hs) ⟨[], good_fresh hc hA hB⟩

end

/-- **The EEPROM is a map**, over every run of writes, reads and constructions that
starts on a flash without a valid page. -/
theorem eeprom_serves (cfg : Config) (hc : cfg.Ok) (c : Cells) (hA : ¬ Valid c cfg.pageA) (hB : ¬ Valid c cfg.pageB)
    (s : State) (hr : Run (Step cfg fun _ _ _ _ => False) (mount cfg c [] []) s) : Serves cfg s := by
  obtain ⟨rs, hg⟩ := good_run hc hA hB hr
  exact hg.serves hc

/-- Pages of 64 bytes, with ten slots each. -/
def small : Config := ⟨⟨64, 3, false⟩, 0, 0⟩

theorem small_ok : small.Ok := by constructor <;> decide

/-- The EEPROM after two words were written and the object was constructed again. -/
theorem small_serves : ∃ s, Run (Step small fun _ _ _ _ => False) (mount small (fun _ _ => 0xFF) [] []) s ∧
    s.hist = [(3, 7), (8, 1), (3, 9)] ∧ Serves small s := by
  have hrun : ∃ s, Run (Step small fun _ _ _ _ => False) (mount small (fun _ _ => 0xFF) [] []) s ∧
      s.hist = [(3, 7), (8, 1), (3, 9)] :=
    exists_run (step_of_step? small _) [.write 3 7, .write 8 1, .construct, .write 3 9] (by decide +kernel)
  obtain ⟨s, hr, hh⟩ := hrun
  exact ⟨s, hr, hh, eeprom_serves small small_ok _ (by decide) (by decide) s hr⟩

/-- The write that finds the page full returns 8, and the address keeps its value. -/
theorem compacting_write_lost : ∃ s, Run (Step small fun _ _ _ _ => False) (mount small (fun _ _ => 0xFF) [] []) s ∧
    (write small 0 10 s.medium).1 = 8 ∧ (exec small s (.write 0 10)).get small 0 = .ok 9 :=
  exists_run (step_of_step? small _) ((List.range 10).map fun i => .write 0 i) (by decide +kernel)

/-- **Power failure**, over every run with any number of them: a cut of a write never
changes another address, the address has its old or its new value unless the cut
tears the record, and the EEPROM goes on as a map.  A torn record is no loss if its
value, or the one before it, is that of erased cells. -/
theorem eeprom_survives (cfg : Config) (hc : cfg.Ok) (c : Cells) (hA : ¬ Valid c cfg.pageA)
    (hB : ¬ Valid c cfg.pageB) (s : State) (hr : Run (Step cfg fun _ _ _ _ => True) (mount cfg c [] []) s)
    (k a v : Nat) (ha : a ≤ cfg.vaMax) (hv : v < 2 ^ 32) :
    (∀ b ≤ cfg.vaMax, b ≠ a → (exec cfg s (.crash k a v)).get cfg b = s.get cfg b) ∧
      (((exec cfg s (.crash k a v)).get cfg a = s.get cfg a ∨ (exec cfg s (.crash k a v)).get cfg a = .ok v) ↔
        ¬ Torn cfg s k ∨ v = 0xFFFFFFFF ∨ s.get cfg a = .ok 0xFFFFFFFF) ∧
      ∀ s', Run (Step cfg fun _ _ _ _ => True) (exec cfg s (.crash k a v)) s' → Serves cfg s' := by
  obtain ⟨rs, hg⟩ := good_run hc hA hB hr
  obtain ⟨rs', hg'⟩ := hg.crash (k := k) (a := a) hc hv
  have hhist : (exec cfg s (.crash k a v)).hist = cutHist cfg s k a v := by rw [exec_crash rfl, mount_eq]
  refine ⟨fun b hb hne => ?_, ?_, fun s' hr' => ?_⟩
  · rw [hg'.get hc hb, hg.get hc hb, hhist, cutHist]
    split
    · unfold recordOf
      split
      · rw [List.append_nil]
      · rw [answer_snoc, if_neg (Ne.symm hne)]
      · rw [answer_snoc, if_neg (Ne.symm hne)]
    · rfl
  · rw [hg'.get hc ha, hg.get hc ha, hhist]
    rcases hg.answer_cutHist (k := k) (v := v) hc ha with ⟨h, ht⟩ | ⟨h, ht⟩ | ⟨h, ht⟩
    · exact ⟨fun _ => .inl ht, fun _ => .inl h⟩
    · exact ⟨fun _ => .inl ht, fun _ => .inr h⟩
    · rw [h]
      constructor
      · rintro (he | he)
        · exact .inr (.inr he.symm)
        · exact .inr (.inl (by injection he with he; exact he.symm))
      · rintro (hn | rfl | he)
        · exact absurd ht hn
        · exact .inr rfl
        · exact .inl he.symm
  · have hcrash : Step cfg (fun _ _ _ _ => True) (.crash k a v) s (exec cfg s (.crash k a v)) := by
      have hidx := hc.index
      exact ⟨⟨by omega, hv, trivial⟩, rfl⟩
    obtain ⟨rs', hg'⟩ := good_run hc hA hB ((hr.step hcrash).trans hr')
    exact hg'.serves hc

/-- The power fails twice in the copying of a compaction: the address has its value, and
the EEPROM goes on. -/
theorem small_survives : ∃ s, Run (Step small fun _ _ _ _ => True) (mount small (fun _ _ => 0xFF) [] []) s ∧
    s.get small 0 = .ok 9 ∧ ¬ Torn small s 14 ∧
    ((exec small s (.crash 14 0 7)).get small 0 = s.get small 0 ∨ (exec small s (.crash 14 0 7)).get small 0 = .ok 7) ∧
    Serves small (exec small s (.crash 14 0 7)) := by
  have hrun : ∃ s, Run (Step small fun _ _ _ _ => True) (mount small (fun _ _ => 0xFF) [] []) s ∧
      s.get small 0 = .ok 9 ∧ ¬ Torn small s 14 :=
    exists_run (step_of_step? small _) (((List.range 10).map fun i => .write 0 i) ++ [.crash 13 0 7]) (by decide +kernel)
  obtain ⟨s, hr, hget, htorn⟩ := hrun
  have hall := eeprom_survives small small_ok _ (by decide) (by decide) s hr 14 0 7 (by decide) (by decide)
  exact ⟨s, hr, hget, htorn, hall.2.1.mpr (.inl htorn), hall.2.2 _ (.refl _)⟩

/-- A cut between the two parts of a record: the address is there and its value is not. -/
theorem torn_record_read : ∃ s, Run (Step small fun _ _ _ _ => False) (mount small (fun _ _ => 0xFF) [] []) s ∧
    s.get small 0 = .ok 5 ∧ (exec small s (.crash 3 0 7)).get small 0 = .ok 0xFFFFFFFF :=
  exists_run (step_of_step? small _) [.write 0 5] (by decide +kernel)

end Isix.VirtualEeprom
