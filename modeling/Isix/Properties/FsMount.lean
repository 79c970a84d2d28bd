import Isix.Properties.FsStore

/-!
# Isix.Properties.FsMount

The medium of the environment store between calls, and what is done to a whole
bank.  On flash the files are on one of two banks and the other one is erased;
on an EEPROM there is one bank.  Reclaiming keeps the files and moves them to the
other bank on flash, formatting leaves no files, and mounting finds the bank.
-/

namespace Isix.FsEnv

open Flash Memory
open Ring (slice)

/-! ## the medium -/

/-- The bank that the object uses, or would use. -/
def Config.bank (cfg : Config) (alt : Bool) : Nat := if alt then cfg.pgAlt else cfg.pgBase

/-- The pages of the bank are erased. -/
def Erased (cfg : Config) (pg : Nat) (cells : Cells) : Prop := ∀ q < cfg.npages, cells (pg + q) = fun _ => 0xFF

/-- The medium holds the files on one of the banks. -/
structure Holds (cfg : Config) (alt : Bool) (cells : Cells) (m : Nat → Option File) : Prop where
  store : Store cfg (cfg.view (cfg.bank alt) cells) m
  other : cfg.chip.overwrites = false → Erased cfg (cfg.bank !alt) cells
  single : cfg.chip.overwrites = true → alt = false

/-- A mounted store. -/
structure Good (cfg : Config) (o : Env) (cells : Cells) (m : Nat → Option File) : Prop where
  clustSize : o.clustSize = cfg.cs
  holds : Holds cfg o.altPageInUse cells m
  cache : Cache cfg o m

/-- The program is done without a fault, with accesses inside of the chip. -/
def Ends {α : Type} (cfg : Config) (f : M Env α) (o : Env) (cells : Cells) (P : α → Env → Cells → Prop) : Prop :=
  ∃ r o' ops, Does cfg.chip f o cells r o' ops ∧ (∀ op ∈ ops, op.Inside cfg.chip) ∧ P r o' (cfg.chip.applyAll ops cells)

section

variable {cfg : Config} {cells cells' : Cells} {K KF : Clusters} {m m' : Nat → Option File} {o o' : Env} {alt : Bool}
  {pg c k n id : Nat} {α β : Type} {f : M Env α} {g : α → M Env β} {r : α} {ps : List (Nat × List UInt8)}
  {P Q : α → Env → Cells → Prop}

theorem Ends.pure {r : α} (h : P r o cells) : Ends cfg (Pure.pure r) o cells P :=
  ⟨r, o, [], .pure r, nofun, h⟩

theorem Ends.bind {P : β → Env → Cells → Prop} (hf : Ends cfg f o cells Q)
    (hg : ∀ r o' cells', Q r o' cells' → Ends cfg (g r) o' cells' P) : Ends cfg (f >>= g) o cells P := by
  obtain ⟨r, o', ops, hdoes, hin, hQ⟩ := hf
  obtain ⟨s, o'', ops', hdoes', hin', hP⟩ := hg r o' _ hQ
  refine ⟨s, o'', ops ++ ops', hdoes.bind hdoes', fun op hop => ?_, by rwa [applyAll_append]⟩
  rcases List.mem_append.mp hop with hop | hop
  · exact hin op hop
  · exact hin' op hop

theorem Ends.mono (hf : Ends cfg f o cells P) (h : ∀ r o' cells', P r o' cells' → Q r o' cells') : Ends cfg f o cells Q := by
  obtain ⟨r, o', ops, hdoes, hin, hP⟩ := hf
  exact ⟨r, o', ops, hdoes, hin, h _ _ _ hP⟩

theorem Ends.ifPos {p : Prop} [Decidable p] {f' : M Env α} (h : p) (hf : Ends cfg f o cells P) :
    Ends cfg (if p then f else f') o cells P := by rwa [if_pos h]

theorem Ends.ifNeg {p : Prop} [Decidable p] {f' : M Env α} (h : ¬ p) (hf : Ends cfg f o cells P) :
    Ends cfg (if p then f' else f) o cells P := by rwa [if_neg h]

theorem Ends.getObj {g : Env → M Env β} {P : β → Env → Cells → Prop} (hg : Ends cfg (g o) o cells P) :
    Ends cfg (Flash.getObj >>= g) o cells P := by
  obtain ⟨r, o', ops, hdoes, hin, hP⟩ := hg
  exact ⟨r, o', ops, hdoes.getObj, hin, hP⟩

theorem Ends.setObj {g : Unit → M Env β} {P : β → Env → Cells → Prop} (hg : Ends cfg (g ()) o' cells P) :
    Ends cfg (Flash.setObj o' >>= g) o cells P := by
  obtain ⟨r, o'', ops, hdoes, hin, hP⟩ := hg
  exact ⟨r, o'', ops, does_setObj.bind hdoes, hin, hP⟩

theorem Config.bank_bank (cfg : Config) (alt : Bool) : cfg.Bank (cfg.bank alt) := by
  cases alt with
  | true => exact .inr rfl
  | false => exact .inl rfl

theorem Config.page_eq (cfg : Config) (o : Env) : cfg.page o = cfg.bank o.altPageInUse := rfl

/-- On flash the banks are apart. -/
theorem Config.outside (alt : Bool) (hov : cfg.chip.overwrites = false) {q : Nat} (hq : q < cfg.npages) :
    cfg.bank (!alt) + q < cfg.bank alt ∨ cfg.bank alt + cfg.npages ≤ cfg.bank (!alt) + q := by
  unfold Config.bank Config.pgAlt
  cases alt with
  | true => simp [hov, hq]
  | false => simp [hov]

/-- The clusters of a bank are on its pages. -/
theorem view_congr (hc : cfg.Ok) (h : ∀ q < cfg.npages, cells' (pg + q) = cells (pg + q)) (hclu : c < cfg.ncs) :
    cfg.view pg cells' c = cfg.view pg cells c := by
  apply slice_congr
  intro i hi
  exact line_congr (h _ (hc.page_lt hclu (by omega)))

theorem Erased.view (h : Erased cfg pg cells) (hc : cfg.Ok) (hclu : c < cfg.ncs) :
    cfg.view pg cells c = List.replicate cfg.cs 0xFF := by
  apply List.eq_replicate_iff.mpr
  refine ⟨length_view, fun b hb => ?_⟩
  obtain ⟨i, hi, rfl⟩ := List.mem_map.mp hb
  have hlt := List.mem_range.mp hi
  unfold Chip.line
  rw [h _ (hc.page_lt hclu (by omega))]

theorem Good.mounted (hg : Good cfg o cells m) : Mounted cfg (cfg.page o) o :=
  ⟨rfl, hg.clustSize, cfg.bank_bank _⟩

theorem ends_of_peeks (h : Peeks cfg.chip f o cells r) :
    Ends cfg f o cells fun r' o' cells' => r' = r ∧ o' = o ∧ cells' = cells := by
  obtain ⟨ops, hdoes, _, hin, hcells⟩ := h.exists_ops
  exact ⟨r, o, ops, hdoes, hin, rfl, rfl, hcells⟩

/-- A program over the clusters of a bank. -/
theorem On.ends (hon : On cfg pg f o (cfg.view pg cells) r o' ps) (hc : cfg.Ok) (hpg : cfg.Bank pg) :
    Ends cfg f o cells fun r' o'' cells' => r' = r ∧ o'' = o' ∧ cfg.view pg cells' = putAll ps (cfg.view pg cells) ∧
      ∀ q, (q < pg ∨ pg + cfg.npages ≤ q) → cells' q = cells q := by
  obtain ⟨ops, hdoes, htrace⟩ := hon cells rfl
  exact ⟨r, o', ops, hdoes, htrace.inside hc hpg, rfl, rfl, htrace.view hc rfl, fun q hq => htrace.other hc hq⟩

/-- A program that writes nothing. -/
theorem On.ends_peek (hon : On cfg pg f o (cfg.view pg cells) r o' []) (hc : cfg.Ok) (hpg : cfg.Bank pg) :
    Ends cfg f o cells fun r' o'' cells' => r' = r ∧ o'' = o' ∧ cells' = cells := by
  obtain ⟨ops, hdoes, htrace⟩ := hon cells rfl
  exact ⟨r, o', ops, hdoes, htrace.inside hc hpg, rfl, rfl, applyAll_reads htrace.all_reads⟩

/-- A program over the clusters of the bank in use. -/
theorem Holds.on (hh : Holds cfg o.altPageInUse cells m) (hc : cfg.Ok)
    (hon : On cfg (cfg.page o) f o (cfg.view (cfg.page o) cells) r o' ps) (halt : o'.altPageInUse = o.altPageInUse)
    (hstore : Store cfg (putAll ps (cfg.view (cfg.page o) cells)) m') :
    Ends cfg f o cells fun r' o'' cells' => r' = r ∧ o'' = o' ∧ Holds cfg o''.altPageInUse cells' m' ∧
      cfg.view (cfg.page o) cells' = putAll ps (cfg.view (cfg.page o) cells) := by
  refine (hon.ends hc (cfg.bank_bank _)).mono ?_
  rintro r' o'' cells' ⟨rfl, rfl, hview, hother⟩
  refine ⟨rfl, rfl, ⟨?_, fun hov q hq => ?_, ?_⟩, hview⟩
  · rw [halt, ← Config.page_eq, hview]
    exact hstore
  · rw [halt, hother _ (Config.outside _ hov hq), hh.other hov q hq]
  · rw [halt]
    exact hh.single

theorem Good.on (hg : Good cfg o cells m) (hc : cfg.Ok)
    (hon : On cfg (cfg.page o) f o (cfg.view (cfg.page o) cells) r o' ps) (ho : Mounted cfg (cfg.page o) o')
    (halt : o'.altPageInUse = o.altPageInUse)
    (hstore : Store cfg (putAll ps (cfg.view (cfg.page o) cells)) m') (hcache : Cache cfg o' m') :
    Ends cfg f o cells fun r' o'' cells' => r' = r ∧ o'' = o' ∧ Good cfg o'' cells' m' ∧
      cfg.view (cfg.page o) cells' = putAll ps (cfg.view (cfg.page o) cells) := by
  refine (hg.holds.on hc hon halt hstore).mono ?_
  rintro r' o'' cells' ⟨rfl, rfl, hh, hview⟩
  exact ⟨rfl, rfl, ⟨ho.clustSize, hh, hcache⟩, hview⟩

/-! ## erasing -/

theorem does_eraseNonrandomLoop (k p : Nat) (ret : Except Int Unit) :
    Does cfg.chip (eraseNonrandomLoop cfg pg k p ret) o cells (if k = 0 then ret else .ok ()) o
      ((List.range' p k).map fun q => .erase (pg + q)) := by
  induction k generalizing p ret cells with
  | zero => exact .pure _
  | succ k ih =>
    rw [if_neg (by omega)]
    have hrest : ∀ cells, Does cfg.chip (eraseNonrandomLoop cfg pg k (p + 1) (.ok ())) o cells (.ok ()) o
        ((List.range' (p + 1) k).map fun q => .erase (pg + q)) := by
      intro cells
      have hall : Does cfg.chip (eraseNonrandomLoop cfg pg k (p + 1) (.ok ())) o cells _ o _ := ih (p + 1) (.ok ())
      rwa [ite_self] at hall
    exact does_pageErase.bind (hrest _)

/-- Erasing a list of pages. -/
theorem applyAll_erases {l : List Nat} {q : Nat} :
    cfg.chip.applyAll (l.map fun q => .erase (pg + q)) cells q =
      if ∃ p ∈ l, q = pg + p then fun _ => 0xFF else cells q := by
  induction l generalizing cells with
  | nil => simp [applyAll_nil]
  | cons a t ih =>
    rw [List.map_cons, applyAll_cons, ih]
    by_cases hq : q = pg + a
    · have hmem : ∃ p ∈ a :: t, q = pg + p := ⟨a, List.mem_cons_self, hq⟩
      rw [if_pos hmem, hq, apply_erase_self, ite_self]
    · rw [apply_erase_other hq]
      simp [hq]

theorem ends_eraseAllNonrandom (hc : cfg.Ok) (hpg : cfg.Bank pg) : Ends cfg (eraseAllNonrandom cfg pg) o cells
    fun r o' cells' => r = .ok () ∧ o' = o ∧ Erased cfg pg cells' ∧
      ∀ q, (q < pg ∨ pg + cfg.npages ≤ q) → cells' q = cells q := by
  have hpos := hc.npages_pos
  have hle := hpg.le hc
  refine ⟨_, _, _, does_eraseNonrandomLoop cfg.npages 0 (.error errInternal), ?_, ?_, rfl, ?_, ?_⟩
  · intro op hop
    obtain ⟨q, hq, rfl⟩ := List.mem_map.mp hop
    rw [List.mem_range'_1] at hq
    show pg + q < _
    omega
  · rw [if_neg (by omega)]
  · intro q hq
    rw [applyAll_erases, if_pos ⟨q, List.mem_range'_1.mpr (by omega), rfl⟩]
  · intro q hq
    rw [applyAll_erases, if_neg]
    rintro ⟨p, hp, rfl⟩
    rw [List.mem_range'_1] at hp
    omega

/-- `node_cleanup` -/
def cleanup : List UInt8 := [0xFF, 0xFF, 0xFF, 0xFF]

theorem on_eraseRandomLoop (hc : cfg.Ok) (hov : cfg.chip.overwrites = true) (hk : c + k ≤ cfg.ncs)
    {ret : Except Int Unit} (hret : k = 0 → ret = .ok ()) :
    On cfg pg (eraseRandomLoop cfg pg cfg.cs k c ret) o K (.ok ()) o ((List.range' c k).map fun x => (x, cleanup)) := by
  have hcs := cfg.cs_bounds
  induction k generalizing c K ret with
  | zero =>
    rw [hret rfl]
    exact .pure _
  | succ k ih =>
    have hwrite : On cfg pg (flashWrite cfg pg c cfg.cs cleanup) o K (.ok ()) o [(c, cleanup)] :=
      on_flashWrite hc (by omega) (by simp [cleanup]) (by simp [cleanup]; omega) (takes_overwrites hov)
    exact hwrite.bind hc (ih (by omega) fun _ => rfl)

/-- The header is written. -/
theorem on_writeHeader (hc : cfg.Ok) (htakes : Takes cfg.chip (K 0) (pgHdr cfg.cs)) :
    On cfg pg (Flash.write cfg.chip pg 0 (pgHdr cfg.cs)) o K (.ok ()) o [(0, pgHdr cfg.cs)] := fun cells _ => by
  have hcs := cfg.cs_bounds
  have hps := hc.pageSize
  have htwo := hc.two
  have hlen : (pgHdr cfg.cs).length = 6 := by simp [pgHdr, length_toBytes]
  have hne : pgHdr cfg.cs ≠ [] := List.length_pos_iff.mp (by omega)
  have hops : cfg.writeOps pg 0 (pgHdr cfg.cs) = [.program pg 0 (pgHdr cfg.cs)] := by
    rw [writeOps_single hc hne (by omega), Nat.zero_mul, Nat.zero_div, Nat.zero_mod, Nat.add_zero]
  have hput : Trace cfg pg K (cfg.writeOps pg 0 (pgHdr cfg.cs) ++ []) [(0, pgHdr cfg.cs)] :=
    .put (by omega) hne (by omega) htakes .nil
  rw [hops] at hput
  exact ⟨_, does_write, hput⟩

theorem header_put : pgHdr cfg.cs <+: put 0 (pgHdr cfg.cs) K 0 := by
  rw [put_self]
  exact List.prefix_append _ _

/-- Nothing is stored on a bank with a header and unused clusters. -/
theorem store_empty (hlen : ∀ c, (K c).length = cfg.cs) (hheader : pgHdr cfg.cs <+: K 0)
    (hfree : ∀ c, 0 < c → c < cfg.ncs → Unused cfg K c) : Store cfg K fun _ => none where
  length := hlen
  header := hheader
  file := nofun
  apart := nofun
  vacant c hpos hclu _ := Or.inl (hfree c hpos hclu)

theorem ofBytes_idNext_erased {rest : List UInt8} : (Node.ofBytes (0xFF :: 0xFF :: rest)).idNext = nodeUnused := by
  simp [Node.ofBytes, ofBytes, nodeUnused]

theorem unused_erased (h : K c = List.replicate cfg.cs 0xFF) : Unused cfg K c := by
  have hcs := cfg.cs_bounds
  refine ⟨?_, .inr h⟩
  obtain ⟨j, hj⟩ : ∃ j, cfg.cs = j + 2 := ⟨cfg.cs - 2, by omega⟩
  rw [h, hj, List.replicate_succ, List.replicate_succ]
  exact ofBytes_idNext_erased

/-! ## format -/

theorem length_pgHdr : (pgHdr n).length = 6 := by simp [pgHdr, length_toBytes]

theorem on_format (hc : cfg.Ok) (hov : cfg.chip.overwrites = true) (hK : ∀ c, (K c).length = cfg.cs) :
    ∃ ps, On cfg cfg.pgBase (format cfg) o K errSuccess o ps ∧ Store cfg (putAll ps K) fun _ => none := by
  have hcs := cfg.cs_bounds
  have htwo := hc.two
  have hrandom : cfg.canRandomAccess = true := hc.random_iff.trans hov
  have herase : On cfg cfg.pgBase (eraseAllPages cfg cfg.pgBase) o K (.ok ()) o
      ((List.range' 0 cfg.ncs).map fun x => (x, cleanup)) := by
    unfold eraseAllPages
    rw [if_pos hrandom]
    exact on_eraseRandomLoop hc hov (by show 0 + cfg.ncs ≤ _; omega) fun h0 => by
      have hn : cfg.ncs = 0 := h0
      omega
  refine ⟨_, herase.bind hc ((on_writeHeader hc (takes_overwrites hov)).bind hc (.ifPos hrandom (.pure _))), ?_⟩
  rw [List.append_nil, putAll_append]
  have hlen : ∀ c, (putAll ((List.range' 0 cfg.ncs).map fun x => (x, cleanup)) K c).length = cfg.cs :=
    length_putAll hK fun p hp => by
      obtain ⟨x, _, rfl⟩ := List.mem_map.mp hp
      simp [cleanup]
      omega
  refine store_empty (length_putAll hlen fun p hp => ?_) header_put fun c hpos hclu => ⟨?_, .inl hov⟩
  · rw [List.mem_singleton.mp hp, length_pgHdr]
    omega
  · rw [putAll_cons, putAll_other (by simp), put_other (by omega),
      putAll_map (List.nodup_range' ) (List.mem_range'_1.mpr (by omega))]
    exact ofBytes_idNext_erased

/-- `format` leaves an empty store on the first bank. -/
theorem ends_format (hc : cfg.Ok) : Ends cfg (format cfg) o cells fun r o' cells' =>
    r = errSuccess ∧ o' = o ∧ Holds cfg false cells' fun _ => none := by
  cases hov : cfg.chip.overwrites with
  | true =>
    obtain ⟨ps, hon, hstore⟩ := on_format hc hov fun c => length_view
    refine (hon.ends hc (.inl rfl)).mono ?_
    rintro r o' cells' ⟨rfl, rfl, hview, _⟩
    refine ⟨rfl, rfl, ?_, fun h => ?_, fun _ => rfl⟩
    · show Store cfg (cfg.view cfg.pgBase cells') _
      rw [hview]
      exact hstore
    · simp [hov] at h
  | false =>
    have hrandom : cfg.canRandomAccess = false := hc.random_iff.trans hov
    have hpages : ∀ pg, eraseAllPages cfg pg = eraseAllNonrandom cfg pg := fun pg => by
      unfold eraseAllPages
      rw [hrandom]
      rfl
    unfold format
    rw [hpages, hpages]
    refine (ends_eraseAllNonrandom hc (.inl rfl)).bind ?_
    rintro r o1 cells1 ⟨rfl, rfl, hbase, _⟩
    have hheader : On cfg cfg.pgBase (Flash.write cfg.chip cfg.pgBase 0 (pgHdr cfg.cs)) o1
        (cfg.view cfg.pgBase cells1) (.ok ()) o1 [(0, pgHdr cfg.cs)] :=
      on_writeHeader hc (by rw [hbase.view hc (Nat.lt_of_lt_of_le Nat.two_pos hc.two)]; exact takes_erased)
    refine (hheader.ends hc (.inl rfl)).bind ?_
    rintro r o2 cells2 ⟨rfl, rfl, hview, _⟩
    rw [hrandom]
    refine (ends_eraseAllNonrandom hc (.inr rfl)).bind ?_
    rintro r o3 cells3 ⟨rfl, rfl, halt, hother⟩
    refine Ends.pure ⟨rfl, rfl, ?_, fun _ => halt, fun h => by simp [hov] at h⟩
    -- erasing the other bank does not touch the first one
    have hsame : ∀ c < cfg.ncs, cfg.view cfg.pgBase cells3 c = put 0 (pgHdr cfg.cs) (cfg.view cfg.pgBase cells1) c := by
      intro c hclu
      have hout : ∀ q < cfg.npages, cells3 (cfg.pgBase + q) = cells2 (cfg.pgBase + q) := fun q hq =>
        hother _ (Config.outside true hov hq)
      rw [view_congr hc hout hclu, hview]
      rfl
    have htwo := hc.two
    refine store_empty (fun _ => length_view) ?_ fun c hpos hclu => unused_erased ?_
    · show _ <+: cfg.view cfg.pgBase cells3 0
      rw [hsame 0 (by omega)]
      exact header_put
    · show cfg.view cfg.pgBase cells3 c = _
      rw [hsame c hclu, put_other (by omega), hbase.view hc hclu]

/-! ## reclaim -/

/-- The header of a cluster that is reclaimed. -/
def cleaned (old : List UInt8) : List UInt8 := { Node.ofBytes old with idNext := nodeUnused }.bytes

theorem ofBytes_cleaned {l rest : List UInt8} :
    Node.ofBytes (cleaned l ++ rest) = { Node.ofBytes l with idNext := nodeUnused } := by
  obtain ⟨htype, _, hnext, hlen, hcrc⟩ := Node.fits_ofBytes l
  exact Node.ofBytes_bytes ⟨htype, by simp [nodeUnused], hnext, hlen, hcrc⟩

/-- The pieces that `reclaim_random` writes. -/
def cleans (K : Clusters) (l : List Nat) : List (Nat × List UInt8) :=
  (l.filter fun c => (Node.ofBytes (K c)).idNext = nodeDirty).map fun c => (c, cleaned (K c))

theorem cleans_congr {K' : Clusters} {l : List Nat} (h : ∀ c ∈ l, K' c = K c) : cleans K' l = cleans K l := by
  unfold cleans
  rw [List.filter_congr fun c hc => by rw [h c hc]]
  exact List.map_congr_left fun c hc => by rw [h c (List.mem_filter.mp hc).1]

theorem on_reclaimRandomLoop (hc : cfg.Ok) (hov : cfg.chip.overwrites = true) (hk : c + k = cfg.ncs) :
    On cfg cfg.pgBase (reclaimRandomLoop cfg cfg.cs k c) o K 0 o (cleans K (List.range' c k)) := by
  have hcs := cfg.cs_bounds
  induction k generalizing c K with
  | zero => exact .pure _
  | succ k ih =>
    refine (on_flashRead hc (.inl rfl) (by omega) (by omega) (by omega)).peek hc ?_
    simp only [Node.ofBytes_take]
    unfold cleans
    rw [List.range'_succ, List.filter_cons]
    by_cases hdirty : (Node.ofBytes (K c)).idNext = nodeDirty
    · rw [if_pos (decide_eq_true hdirty)]
      have hwrite : On cfg cfg.pgBase (flashWrite cfg cfg.pgBase c cfg.cs (cleaned (K c))) o K (.ok ()) o
          [(c, cleaned (K c))] :=
        on_flashWrite hc (by omega) (List.length_pos_iff.mp (by rw [cleaned, Node.length_bytes]; omega))
          (by rw [cleaned, Node.length_bytes]; omega) (takes_overwrites hov)
      have hrest := ih (K := put c (cleaned (K c)) K) (show c + 1 + k = cfg.ncs by omega)
      rw [cleans_congr fun x hx => put_other fun he => by
        rw [List.mem_range'_1] at hx
        omega] at hrest
      exact .ifPos hdirty (hwrite.bind hc hrest)
    · have hskip : ¬ decide ((Node.ofBytes (K c)).idNext = nodeDirty) = true := by simpa using hdirty
      rw [if_neg hskip]
      exact .ifNeg hdirty (ih (show c + 1 + k = cfg.ncs by omega))

/-- Dirty clusters are unused after a reclaim on an EEPROM. -/
theorem Store.cleans (h : Store cfg K m) (hc : cfg.Ok) (hov : cfg.chip.overwrites = true) :
    Store cfg (putAll (cleans K (List.range' 1 (cfg.ncs - 1))) K) m := by
  have hcs := cfg.cs_bounds
  have hnodup : ((List.range' 1 (cfg.ncs - 1)).filter fun c => (Node.ofBytes (K c)).idNext = nodeDirty).Nodup :=
    (List.nodup_range').filter _
  have hkeep : ∀ c, ¬ (Node.ofBytes (K c)).idNext = nodeDirty ∨ c = 0 →
      putAll (FsEnv.cleans K (List.range' 1 (cfg.ncs - 1))) K c = K c := by
    intro c hc
    apply putAll_other
    simp only [FsEnv.cleans, List.map_map, Function.comp_def, List.map_id', List.mem_filter, List.mem_range'_1]
    rintro ⟨hrange, hdirty⟩
    rcases hc with hc | hc
    · exact hc (by simpa using hdirty)
    · omega
  refine h.congr (length_putAll h.length fun p hp => ?_) (hkeep 0 (.inr rfl)) (fun c hown => hkeep c (.inl ?_)) ?_
  · obtain ⟨c, _, rfl⟩ := List.mem_map.mp hp
    rw [cleaned, Node.length_bytes]
    omega
  · obtain ⟨id, f, hf, hmem⟩ := hown
    have hpos := ((h.file id f hf).not_vacant hc hmem).1
    intro hdirty
    rw [hdirty] at hpos
    cases hpos
  · intro c hpos hclu hown
    by_cases hdirty : (Node.ofBytes (K c)).idNext = nodeDirty
    · refine .inl ⟨?_, .inl hov⟩
      rw [FsEnv.cleans, putAll_map hnodup (List.mem_filter.mpr ⟨List.mem_range'_1.mpr (by omega), decide_eq_true hdirty⟩)]
      exact congrArg Node.idNext ofBytes_cleaned
    · unfold Unused Blank Dirty
      rw [hkeep c (.inl hdirty)]
      exact h.vacant c hpos hclu hown

/-- No cluster waits for a reclaim. -/
def NoDirty (cfg : Config) (K : Clusters) : Prop := ∀ c, 0 < c → c < cfg.ncs → ¬ Dirty K c

theorem noDirty_cleans : NoDirty cfg (putAll (cleans K (List.range' 1 (cfg.ncs - 1))) K) := by
  intro c hpos hclu
  by_cases hdirty : (Node.ofBytes (K c)).idNext = nodeDirty
  · rw [Dirty, cleans, putAll_map ((List.nodup_range').filter _)
      (List.mem_filter.mpr ⟨List.mem_range'_1.mpr (by omega), decide_eq_true hdirty⟩)]
    intro h
    rw [overwrite, ofBytes_cleaned] at h
    cases h
  · rw [Dirty, putAll_other]
    · exact hdirty
    · simpa [cleans, Function.comp_def] using fun _ _ => hdirty

/-- The pieces that `reclaim_nonrandom` copies. -/
def copies (K : Clusters) (l : List Nat) : List (Nat × List UInt8) :=
  (l.filter fun c => (Node.ofBytes (K c)).idNext ≠ nodeDirty ∧ (Node.ofBytes (K c)).idNext ≠ nodeUnused).map
    fun c => (c, K c)

theorem ends_copyLoop (hc : cfg.Ok) (hov : cfg.chip.overwrites = false) (hk : c + k = cfg.ncs)
    (hfrom : ∀ x < cfg.ncs, cfg.view (cfg.bank !alt) cells x = KF x) (hK : cfg.view (cfg.bank alt) cells = K)
    (hblank : ∀ x, c ≤ x → x < cfg.ncs → K x = List.replicate cfg.cs 0xFF) :
    Ends cfg (copyLoop cfg (cfg.bank !alt) (cfg.bank alt) cfg.cs k c) o cells fun _ o' cells' =>
      o' = o ∧ cfg.view (cfg.bank alt) cells' = putAll (copies KF (List.range' c k)) K ∧
      ∀ q, (q < cfg.bank alt ∨ cfg.bank alt + cfg.npages ≤ q) → cells' q = cells q := by
  have hcs := cfg.cs_bounds
  induction k generalizing c cells K with
  | zero => exact .pure ⟨rfl, hK, fun _ _ => rfl⟩
  | succ k ih =>
    refine (ends_of_peeks (peeks_flashRead hc (cfg.bank_bank _) (show c < cfg.ncs by omega) (by omega) le_rfl)).bind ?_
    rintro r o1 cells1 ⟨rfl, rfl, rfl⟩
    have hread : (cfg.view (cfg.bank !alt) cells1 c).take cfg.cs = KF c := by
      rw [List.take_of_length_le length_view.le, hfrom c (by omega)]
    simp only [hread]
    unfold copies
    rw [List.range'_succ, List.filter_cons]
    by_cases hlive : (Node.ofBytes (KF c)).idNext ≠ nodeDirty ∧ (Node.ofBytes (KF c)).idNext ≠ nodeUnused
    · rw [if_pos hlive, if_pos (decide_eq_true hlive)]
      have hlen : (KF c).length = cfg.cs := by rw [← hfrom c (by omega), length_view]
      have hwrite : On cfg (cfg.bank alt) (flashWrite cfg (cfg.bank alt) c cfg.cs (KF c)) o1
          (cfg.view (cfg.bank alt) cells1) (.ok ()) o1 [(c, KF c)] :=
        on_flashWrite hc (by omega) (List.length_pos_iff.mp (by omega)) (by omega)
          (by rw [hK, hblank c (by omega) (by omega)]; exact takes_erased)
      refine (hwrite.ends hc (cfg.bank_bank _)).bind ?_
      rintro r o2 cells2 ⟨rfl, rfl, hview, hother⟩
      refine (ih (K := put c (KF c) K) (by omega) (fun x hx => ?_) (by rw [hview, hK]; rfl) fun x hle hlt => ?_).mono ?_
      · have hout : ∀ q < cfg.npages, cells2 (cfg.bank (!alt) + q) = cells1 (cfg.bank (!alt) + q) := fun q hq =>
          hother _ (Config.outside alt hov hq)
        rw [view_congr hc hout hx, hfrom x hx]
      · rw [put_other (by omega), hblank x (by omega) hlt]
      · rintro _ o3 cells3 ⟨rfl, hview3, hother3⟩
        exact ⟨rfl, hview3, fun q hq => (hother3 q hq).trans (hother q hq)⟩
    · rw [if_neg hlive, if_neg (by simpa using hlive)]
      exact ih (by omega) hfrom hK fun x hle hlt => hblank x (by omega) hlt

/-- The copies of the clusters of a store, on an erased bank and behind a header. -/
theorem Store.copies (h : Store cfg KF m) (hc : cfg.Ok) (hlen : ∀ c, (K c).length = cfg.cs)
    (hheader : pgHdr cfg.cs <+: K 0) (hK : ∀ c, 0 < c → c < cfg.ncs →
      K c = putAll (copies KF (List.range' 1 (cfg.ncs - 1))) (fun _ => List.replicate cfg.cs 0xFF) c) :
    Store cfg K m := by
  have hown : ∀ c, Owned m c → K c = KF c := by
    rintro c ⟨id, f, hf, hmem⟩
    obtain ⟨hpos, hclu⟩ := (h.file id f hf).inside c hmem
    obtain ⟨hdirty, hunused⟩ := (h.file id f hf).not_vacant hc hmem
    have hnodup : ((List.range' 1 (cfg.ncs - 1)).filter fun c => decide ((Node.ofBytes (KF c)).idNext ≠ nodeDirty ∧
        (Node.ofBytes (KF c)).idNext ≠ nodeUnused)).Nodup := (List.nodup_range').filter _
    rw [hK c hpos hclu, FsEnv.copies, putAll_map hnodup (List.mem_filter.mpr ⟨List.mem_range'_1.mpr (by omega),
      decide_eq_true ⟨Nat.ne_of_gt hdirty, by omega⟩⟩), overwrite, h.length c, List.drop_eq_nil_of_le (by simp),
      List.append_nil]
  refine ⟨hlen, hheader, fun id f hf => (h.file id f hf).congr fun c hmem => hown c ⟨id, f, hf, hmem⟩, h.apart,
    fun c hpos hclu hfree => .inl (unused_erased ?_)⟩
  -- what is on no chain is not copied
  rw [hK c hpos hclu, putAll_other]
  simp only [FsEnv.copies, List.map_map, Function.comp_def, List.map_id', List.mem_filter, decide_eq_true_eq]
  rintro ⟨_, hdirty, hunused⟩
  rcases h.vacant c hpos hclu hfree with hv | hv
  · exact hunused hv.1
  · exact hdirty hv

theorem noDirty_copies (hlen : ∀ c, (KF c).length = cfg.cs) (hK : ∀ c, 0 < c → c < cfg.ncs →
    K c = putAll (copies KF (List.range' 1 (cfg.ncs - 1))) (fun _ => List.replicate cfg.cs 0xFF) c) : NoDirty cfg K := by
  intro c hpos hclu
  have hrange : c ∈ List.range' 1 (cfg.ncs - 1) := List.mem_range'_1.mpr (by omega)
  by_cases hlive : (Node.ofBytes (KF c)).idNext ≠ nodeDirty ∧ (Node.ofBytes (KF c)).idNext ≠ nodeUnused
  · rw [Dirty, hK c hpos hclu, copies, putAll_map ((List.nodup_range').filter _)
      (List.mem_filter.mpr ⟨hrange, decide_eq_true hlive⟩), overwrite, hlen c, List.drop_eq_nil_of_le (by simp),
      List.append_nil]
    exact hlive.1
  · have hblank : K c = List.replicate cfg.cs 0xFF := by
      rw [hK c hpos hclu, putAll_other]
      simp only [copies, List.map_map, Function.comp_def, List.map_id', List.mem_filter, decide_eq_true_eq]
      exact fun h => hlive h.2
    rw [Dirty, (unused_erased hblank).1]
    decide

/-- The object with the other bank. -/
def Env.flip (o : Env) : Env := { o with altPageInUse := !o.altPageInUse }

theorem ends_reclaimNonrandom (hc : cfg.Ok) (hov : cfg.chip.overwrites = false) (ho : o.clustSize = cfg.cs)
    (hh : Holds cfg o.altPageInUse cells m) :
    Ends cfg (reclaimNonrandom cfg) o cells fun r o' cells' =>
      r = 0 ∧ o' = o.flip ∧ Holds cfg o'.altPageInUse cells' m ∧ NoDirty cfg (cfg.view (cfg.page o') cells') := by
  have htwo := hc.two
  obtain ⟨alt, halt⟩ : ∃ alt, o.altPageInUse = !alt := ⟨!o.altPageInUse, by simp⟩
  have herased := hh.other hov
  rw [halt, Bool.not_not] at herased
  have hpages : (if o.altPageInUse then cfg.pgAlt else cfg.pgBase) = cfg.bank (!alt) ∧
      (if o.altPageInUse then cfg.pgBase else cfg.pgAlt) = cfg.bank alt := by
    rw [halt]
    cases alt <;> exact ⟨rfl, rfl⟩
  refine .getObj ?_
  simp only [hpages.1, hpages.2, ho]
  have hcopy : Ends cfg (copyLoop cfg (cfg.bank !alt) (cfg.bank alt) cfg.cs (cfg.ncs - 1) 1) o cells _ :=
    ends_copyLoop hc hov (by omega) (fun _ _ => rfl) rfl fun x hpos hclu => herased.view hc hclu
  refine hcopy.bind ?_
  rintro _ o1 cells1 ⟨rfl, hview1, hother1⟩
  refine (ends_eraseAllNonrandom hc (cfg.bank_bank _)).bind ?_
  rintro r o2 cells2 ⟨rfl, rfl, herased2, hother2⟩
  -- the copies are not erased with the old bank
  have hkeep : ∀ c < cfg.ncs, cfg.view (cfg.bank alt) cells2 c = cfg.view (cfg.bank alt) cells1 c := fun c hclu =>
    view_congr hc (fun q hq => hother2 _ (by simpa using Config.outside (!alt) hov hq)) hclu
  have hblank0 : cfg.view (cfg.bank alt) cells2 0 = List.replicate cfg.cs 0xFF := by
    rw [hkeep 0 (by omega), hview1, putAll_other, herased.view hc (by omega)]
    simp only [copies, List.map_map, Function.comp_def, List.map_id', List.mem_filter, List.mem_range'_1]
    omega
  have hheader : On cfg (cfg.bank alt) (Flash.write cfg.chip (cfg.bank alt) 0 (pgHdr cfg.cs)) o2
      (cfg.view (cfg.bank alt) cells2) (.ok ()) o2 [(0, pgHdr cfg.cs)] :=
    on_writeHeader hc (by rw [hblank0]; exact takes_erased)
  refine (hheader.ends hc (cfg.bank_bank _)).bind ?_
  rintro r o3 cells3 ⟨rfl, rfl, hview3, hother3⟩
  have hcopied : ∀ c, 0 < c → c < cfg.ncs → cfg.view (cfg.bank alt) cells3 c = putAll (copies
      (cfg.view (cfg.bank !alt) cells) (List.range' 1 (cfg.ncs - 1))) (fun _ => List.replicate cfg.cs 0xFF) c := by
    intro c hpos hclu
    rw [hview3, putAll_cons, putAll_other (by simp), put_other (by omega), hkeep c hclu, hview1]
    -- only the clusters of the bank matter
    exact putAll_congr_at (herased.view hc hclu)
  refine .getObj (.setObj (.pure ⟨rfl, rfl, ⟨?_, fun _ => ?_, fun h => by simp [hov] at h⟩, ?_⟩))
  · rw [halt, Bool.not_not]
    refine Store.copies (by rw [halt] at hh; exact hh.store) hc (fun _ => length_view) ?_ hcopied
    rw [hview3]
    exact header_put
  · rw [halt, Bool.not_not]
    exact fun q hq => (hother3 _ (Config.outside alt hov hq)).trans (herased2 q hq)
  · rw [Config.page_eq, halt, Bool.not_not]
    exact noDirty_copies (fun _ => length_view) hcopied

/-- **Reclaim**: the files stay, and all other clusters can be written. -/
theorem Good.ends_reclaim (hg : Good cfg o cells m) (hc : cfg.Ok) : Ends cfg (reclaim cfg) o cells fun r o' cells' =>
    r = 0 ∧ Good cfg o' cells' m ∧ NoDirty cfg (cfg.view (cfg.page o') cells') ∧ o'.lastFreeClust = firstCluster := by
  refine .getObj (.setObj ?_)
  cases hov : cfg.chip.overwrites with
  | true =>
    have hrandom : cfg.canRandomAccess = true := hc.random_iff.trans hov
    have halt := hg.holds.single hov
    have hsize := hg.clustSize
    have hcs := cfg.cs_bounds
    have htwo := hc.two
    have hpage : cfg.page o = cfg.pgBase := by rw [Config.page_eq, halt]; rfl
    have hg' : Good cfg { o with lru := [], lastFreeClust := firstCluster } cells m :=
      ⟨hsize, hg.holds, .empty rfl Nat.one_pos⟩
    have hloop : On cfg cfg.pgBase (reclaimRandom cfg) { o with lru := [], lastFreeClust := firstCluster }
        (cfg.view cfg.pgBase cells) 0 { o with lru := [], lastFreeClust := firstCluster }
        (FsEnv.cleans (cfg.view cfg.pgBase cells) (List.range' 1 (cfg.ncs - 1))) := by
      refine .getObj (.ifNeg (by simp [halt]) (.ifNeg (by simp only [hsize]; omega) ?_))
      simp only [hsize]
      exact on_reclaimRandomLoop hc hov (show 1 + (cfg.ncs - 1) = cfg.ncs by omega)
    rw [if_pos hrandom]
    rw [← hpage] at hloop
    refine (hg'.on hc hloop hg'.mounted rfl (hg.holds.store.cleans hc hov) hg'.cache).mono ?_
    rintro r o' cells' ⟨rfl, rfl, hgood, hview⟩
    refine ⟨rfl, hgood, ?_, rfl⟩
    rw [hview]
    exact noDirty_cleans
  | false =>
    have hrandom : ¬ cfg.canRandomAccess = true := by rw [hc.random_iff, hov]; simp
    rw [if_neg hrandom]
    have hreclaim : Ends cfg (reclaimNonrandom cfg) { o with lru := [], lastFreeClust := firstCluster } cells _ :=
      ends_reclaimNonrandom hc hov hg.clustSize hg.holds
    refine hreclaim.mono ?_
    rintro r o' cells' ⟨rfl, rfl, hh, hclean⟩
    exact ⟨rfl, ⟨hg.clustSize, hh, .empty rfl Nat.one_pos⟩, hclean, rfl⟩

/-! ## mount -/

/-- The cluster size in the header on a page, if it is valid. -/
def headerAt (cells : Cells) (pg : Nat) : Option Nat :=
  if ofBytes ((slice 0 6 (cells pg)).take 4) = idValid then some (ofBytes ((slice 0 6 (cells pg)).drop 4)) else none

theorem peeks_readHeader (hc : cfg.Ok) (hpg : cfg.Bank pg) :
    Peeks cfg.chip (readHeader cfg pg) o cells (.ok (headerAt cells pg)) := by
  have hps := hc.pageSize
  have hpos := hc.npages_pos
  have hle := hpg.le hc
  exact (peeks_read (by omega) (by omega)).bind (.pure _)

theorem headerAt_header (hc : cfg.Ok) (h : pgHdr cfg.cs <+: cfg.view pg cells 0) : headerAt cells pg = some cfg.cs := by
  have hcs := cfg.cs_bounds
  have hps := hc.pageSize
  have hslice : slice 0 6 (cells pg) = pgHdr cfg.cs := by
    have hline : slice (0 % cfg.chip.pageSize) 6 (cells (pg + 0 / cfg.chip.pageSize)) = slice 0 6 (cfg.chip.line pg cells) :=
      slice_line (by rw [Nat.zero_mod]; omega)
    rw [Nat.zero_mod, Nat.zero_div, Nat.add_zero] at hline
    obtain ⟨rest, hrest⟩ := h
    have htake : (cfg.view pg cells 0).take 6 = slice 0 6 (cfg.chip.line pg cells) := by
      rw [Config.view, take_slice (by omega), Nat.zero_mul]
    rw [hline, ← htake, ← hrest, List.take_left' length_pgHdr]
  unfold headerAt
  rw [hslice, pgHdr, List.take_left' (length_toBytes _ _), List.drop_left' (length_toBytes _ _), ofBytes_toBytes,
    ofBytes_toBytes, Nat.mod_eq_of_lt (show cfg.cs < 256 ^ 2 by omega), if_pos (by decide)]

theorem headerAt_erased (hc : cfg.Ok) (h : Erased cfg pg cells) : headerAt cells pg = none := by
  have hpage := h 0 hc.npages_pos
  unfold headerAt
  rw [Nat.add_zero] at hpage
  rw [hpage]
  decide

/-- No bank has a header. -/
def NoHeader (cfg : Config) (cells : Cells) : Prop :=
  headerAt cells cfg.pgBase = none ∧ headerAt cells cfg.pgAlt = none

/-- One bank has a header, the other one is erased. -/
structure Mountable (cfg : Config) (alt : Bool) (cells : Cells) : Prop where
  header : pgHdr cfg.cs <+: cfg.view (cfg.bank alt) cells 0
  other : cfg.chip.overwrites = false → Erased cfg (cfg.bank !alt) cells
  single : cfg.chip.overwrites = true → alt = false

theorem Holds.mountable (h : Holds cfg alt cells m) : Mountable cfg alt cells := ⟨h.store.header, h.other, h.single⟩

theorem peeks_findValidPage_some (hc : cfg.Ok) (h : Mountable cfg alt cells) : Peeks cfg.chip (findValidPage cfg) o cells
    (if alt then errHdrSecond else errHdrFirst, cfg.cs) := by
  cases alt with
  | false =>
    have hbase : headerAt cells cfg.pgBase = some cfg.cs := headerAt_header hc h.header
    refine (peeks_readHeader hc (.inl rfl)).bind ?_
    rw [hbase]
    exact .pure _
  | true =>
    have hov : cfg.chip.overwrites = false := by
      cases hov : cfg.chip.overwrites with
      | false => rfl
      | true => exact absurd (h.single hov) (by simp)
    have hrandom : ¬ cfg.canRandomAccess = true := by rw [hc.random_iff, hov]; simp
    have hbase : headerAt cells cfg.pgBase = none := headerAt_erased hc (h.other hov)
    have halt : headerAt cells cfg.pgAlt = some cfg.cs := headerAt_header hc h.header
    refine (peeks_readHeader hc (.inl rfl)).bind ?_
    rw [hbase]
    simp only [if_neg hrandom]
    refine (peeks_readHeader hc (.inr rfl)).bind ?_
    rw [halt]
    exact .pure _

theorem peeks_findValidPage_none (hc : cfg.Ok) (h : NoHeader cfg cells) :
    Peeks cfg.chip (findValidPage cfg) o cells (errHdrNotFound, 0) := by
  refine (peeks_readHeader hc (.inl rfl)).bind ?_
  rw [h.1]
  by_cases hrandom : cfg.canRandomAccess = true
  · simp only [if_pos hrandom]
    exact .pure _
  · simp only [if_neg hrandom]
    refine (peeks_readHeader hc (.inr rfl)).bind ?_
    rw [h.2]
    exact .pure _

/-- What is stored before a call. -/
inductive Stored (cfg : Config) (o : Env) (cells : Cells) (m : Nat → Option File) : Prop
  | mounted (h : Good cfg o cells m)
  | unmounted (hsize : o.clustSize = 0) (alt : Bool) (h : Holds cfg alt cells m)
  | blank (hsize : o.clustSize = 0) (h : NoHeader cfg cells) (hm : m = fun _ => none)

/-- A new object that has found its bank. -/
def Env.fresh (cfg : Config) (alt : Bool) : Env := ⟨cfg.cs, alt, firstCluster, []⟩

theorem Holds.good_fresh (h : Holds cfg alt cells m) : Good cfg (Env.fresh cfg alt) cells m :=
  ⟨rfl, h, .empty rfl Nat.one_pos⟩

/-- A new object finds the bank, and only reads. -/
theorem does_initFs_new (hc : cfg.Ok) (h : Mountable cfg alt cells) (hsize : o.clustSize = 0) :
    ∃ ops, Does cfg.chip (initFs cfg) o cells errSuccess (Env.fresh cfg alt) ops ∧
      ∀ op ∈ ops, op.isRead = true ∧ op.Inside cfg.chip := by
  have hfind : Peeks cfg.chip (findValidPage cfg) o cells (if alt then errHdrSecond else errHdrFirst, cfg.cs) :=
    peeks_findValidPage_some hc h
  obtain ⟨ops, hdoes, hops⟩ := hfind
  refine ⟨ops ++ [], ?_, by rwa [List.append_nil]⟩
  refine .getObj ?_
  rw [if_neg (by simp [hsize])]
  refine hdoes.bind (.getObj ?_)
  cases alt with
  | false => exact does_setObj.bind (.getObj (does_setObj.bind (.pure _)))
  | true => exact does_setObj.bind (.getObj (does_setObj.bind (.pure _)))

/-- **Mount**: `init_fs` finds what is stored, or formats the medium. -/
theorem Stored.ends_initFs (hs : Stored cfg o cells m) (hc : cfg.Ok) : Ends cfg (initFs cfg) o cells fun r o' cells' =>
    r = errSuccess ∧ Good cfg o' cells' m := by
  cases hs with
  | mounted h =>
    have hsize := h.clustSize
    have hcs := cfg.cs_bounds
    exact .getObj (.ifPos (by omega) (.pure ⟨rfl, h⟩))
  | unmounted hsize alt h =>
    obtain ⟨ops, hdoes, hops⟩ := does_initFs_new hc h.mountable hsize
    refine ⟨_, _, ops, hdoes, fun op hop => (hops op hop).2, rfl, ?_⟩
    rw [applyAll_reads fun op hop => (hops op hop).1]
    exact h.good_fresh
  | blank hsize h hm =>
    refine .getObj (.ifNeg (by simp [hsize]) ((ends_of_peeks (peeks_findValidPage_none hc h)).bind ?_))
    rintro r o1 cells1 ⟨rfl, rfl, rfl⟩
    refine .getObj (.setObj ((ends_format hc).bind ?_))
    rintro r o2 cells2 ⟨rfl, rfl, hh⟩
    subst hm
    exact .getObj (.setObj (.pure ⟨rfl, hh.good_fresh⟩))

end

end Isix.FsEnv
