import Isix.Properties.FsMount

/-!
# Isix.Properties.FsCalls

The calls of the environment store on a store of files.  `set` of a name that is
not stored takes the first free clusters; with wear levelling it deletes the old
file first and reclaims where the clusters behind the cursor are not enough.
-/

namespace Isix.FsEnv

open Function (update update_idem update_self)
open Flash Memory

section

variable {cfg : Config} {cells : Cells} {K : Clusters} {m : Nat → Option File} {o : Env} {pg n id : Nat} {d : List UInt8}
  {f : File}

/-! ## a new file -/

/-- The clusters that a value needs. -/
def Config.need (cfg : Config) (d : List UInt8) : Nat := bufLenToNClust cfg.cs d.length

theorem fills_need : Fills cfg.cs true (cfg.need d) d.length := fills_bufLenToNClust cfg.cs_bounds.1

theorem need_pos : 0 < cfg.need d := by
  have hfills : Fills cfg.cs true (cfg.need d) d.length := fills_need
  exact hfills.pos

/-- The check for space passes without a reclaim. -/
theorem on_makeRoom (hc : cfg.Ok) (ho : Mounted cfg pg o) (hn : 0 < n)
    (hroom : cfg.wear = true → n ≤ (frees cfg K (cfg.firstClust o + 1)).length) :
    On cfg pg (makeRoom cfg n) o K errSuccess o [] := by
  refine (on_checkChains hc ho hn).peek hc ?_
  cases hwear : cfg.wear with
  | true =>
    rw [if_pos (hroom hwear), if_pos rfl]
    exact .ifNeg (by unfold errFsFull; omega) (.pure _)
  | false =>
    rw [if_neg (by simp)]
    refine .ifNeg ?_ (.pure _)
    split <;> (try unfold errFsFull) <;> omega

theorem Cache.firstClust_pos (h : Cache cfg o m) : 0 < cfg.firstClust o := by
  unfold Config.firstClust
  split
  · exact h.cursor
  · exact Nat.one_pos

/-- The outcome of writing a new file. -/
structure NewFile (cfg : Config) (pg : Nat) (o o' : Env) (K : Clusters) (m : Nat → Option File) (id : Nat) (d : List UInt8)
    (l : List Nat) : Prop where
  mounted : Mounted cfg pg o'
  alt : o'.altPageInUse = o.altPageInUse
  cache : Cache cfg o' m
  head : 0 < File.head ⟨l, d⟩ ∧ File.head ⟨l, d⟩ < cfg.ncs
  store : Store cfg (putAll (chainPuts cfg id d.length (crc16 d) true l d) K) (update m id (some ⟨l, d⟩))

/-- The object after a `set` that wrote a new file. -/
def Env.cached (o : Env) (id c : Nat) : Env := { o with lru := lruPut id c o.lru }

theorem on_setDone {c : Nat} (hpos : 0 < c) :
    On cfg pg (setDone id errSuccess c) o K (some errSuccess) (o.cached id c) [] := by
  refine .getObj ?_
  rw [if_pos ⟨rfl, Nat.ne_of_gt hpos⟩]
  exact .setObj (.pure _)

theorem NewFile.cached {o' : Env} {l : List Nat} (h : NewFile cfg pg o o' K m id d l) :
    Cache cfg (o'.cached id (File.head ⟨l, d⟩)) (update m id (some ⟨l, d⟩)) :=
  h.cache.put h.head.1 h.head.2 fun f hf => by
    cases hf
    exact le_rfl

section

variable (hc : cfg.Ok) (ho : Mounted cfg pg o) (hs : Store cfg K m) (hcache : Cache cfg o m) (hnone : m id = none)
  (hpos : 0 < id) (hlt : id < nodeEnd) (hshort : d.length ≤ 65535)
  (hwear : cfg.wear = false → cfg.chip.overwrites = true)
  (hroom : cfg.need d ≤ (frees cfg K (cfg.firstClust o)).length)

include hc ho hs hcache hnone hpos hlt hshort hwear hroom

/-- `write_non_existing` behind the check for space. -/
theorem on_writeChain_file :
    ∃ l o', l = (frees cfg K (cfg.firstClust o)).take (cfg.need d) ∧
      On cfg pg (writeChain cfg id d (cfg.need d)) o K (errSuccess, File.head ⟨l, d⟩) o'
        (chainPuts cfg id d.length (crc16 d) true l d) ∧ NewFile cfg pg o o' K m id d l := by
  have hfirst := hcache.firstClust_pos
  have hfrees : ∀ c ∈ frees cfg K (cfg.firstClust o), 0 < c ∧ c < cfg.ncs ∧ isFree cfg K c = true := fun c hmem => by
    obtain ⟨hle, hclu, hfree⟩ := mem_frees.mp hmem
    exact ⟨by omega, hclu, hfree⟩
  obtain ⟨c, t, o', hl, hwrite, ho', halt, hlru, hlast⟩ : ∃ c t o', c :: t = _ ∧
      On cfg pg (writeChain cfg id d (cfg.need d)) o K _ o' _ ∧ _ :=
    on_writeChain hc ho hfirst need_pos fills_need hroom
      fun c hmem => hs.free_blank hc hwear (hfrees c hmem).1 (hfrees c hmem).2.1 (hfrees c hmem).2.2
  have hsub : ∀ x ∈ c :: t, x ∈ frees cfg K (cfg.firstClust o) := fun x hx => List.mem_of_mem_take (hl ▸ hx)
  have hlen : (c :: t).length = cfg.need d := by rw [hl, List.length_take, Nat.min_eq_left hroom]
  have hin : ∀ x ∈ c :: t, 0 < x ∧ x < cfg.ncs := fun x hx => ⟨(hfrees x (hsub x hx)).1, (hfrees x (hsub x hx)).2.1⟩
  refine ⟨c :: t, o', hl, hwrite, ho', halt, hcache.congr hlru (hlast hcache.cursor), hin c List.mem_cons_self, ?_⟩
  refine hs.write hnone hpos hlt hshort (by rw [hlen]; exact fills_need) ?_ hin fun x hx =>
    hs.free_not_owned hc (hfrees x (hsub x hx)).2.2
  rw [hl]
  exact frees_sorted.sublist (List.take_sublist _ _)

variable (hready : cfg.wear = true → cfg.need d ≤ (frees cfg K (cfg.firstClust o + 1)).length)

include hready

/-- `write_non_existing` without a reclaim. -/
theorem on_writeNonExisting :
    ∃ l o', l = (frees cfg K (cfg.firstClust o)).take (cfg.need d) ∧
      On cfg pg (writeNonExisting cfg id d) o K (errSuccess, File.head ⟨l, d⟩) o'
        (chainPuts cfg id d.length (crc16 d) true l d) ∧ NewFile cfg pg o o' K m id d l := by
  obtain ⟨l, o', hl, hwrite, hnew⟩ := on_writeChain_file hc ho hs hcache hnone hpos hlt hshort hwear hroom
  refine ⟨l, o', hl, .getObj ?_, hnew⟩
  rw [ho.clustSize]
  exact (on_makeRoom hc ho need_pos hready).peek hc (.ifPos rfl hwrite)

/-- `set` of a name that is not stored, without a reclaim. -/
theorem on_setNew :
    ∃ l o', l = (frees cfg K (cfg.firstClust o)).take (cfg.need d) ∧
      (∀ ret, ret = errInvalidId ∨ cfg.wear = true →
        On cfg pg (setNew cfg id d ret) o K (some errSuccess) o' (chainPuts cfg id d.length (crc16 d) true l d)) ∧
      Mounted cfg pg o' ∧ o'.altPageInUse = o.altPageInUse ∧ Cache cfg o' (update m id (some ⟨l, d⟩)) ∧
      Store cfg (putAll (chainPuts cfg id d.length (crc16 d) true l d) K) (update m id (some ⟨l, d⟩)) := by
  obtain ⟨l, o', hl, hwrite, hnew⟩ := on_writeNonExisting hc ho hs hcache hnone hpos hlt hshort hwear hroom hready
  refine ⟨l, o'.cached id (File.head ⟨l, d⟩), hl, fun ret hret => .ifPos hret ?_,
    ⟨hnew.mounted.page, hnew.mounted.clustSize, ho.bank⟩,
    hnew.alt, hnew.cached, hnew.store⟩
  rw [← List.append_nil (chainPuts cfg id d.length (crc16 d) true l d)]
  exact hwrite.bind hc (on_setDone hnew.head.1)

end

/-! ## set with wear levelling -/

/-- With wear levelling a deleted cluster is not free. -/
theorem Store.frees_oldPuts (h : Store cfg K m) (hc : cfg.Ok) (hwear : cfg.wear = true) {s : Nat} :
    frees cfg (putAll (FsEnv.oldPuts K m id) K) s = frees cfg K s := by
  unfold FsEnv.oldPuts
  cases hf : m id with
  | none => rfl
  | some f =>
    have hfile := h.file id f hf
    refine frees_congr fun c _ _ => ?_
    by_cases hmem : c ∈ f.chain
    · have hnew : ¬ isFree cfg (putAll (wipes K f.chain) K) c = true := by
        have hdirty : Dirty (putAll (wipes K f.chain) K) c := dirty_wipes hfile.nodup hmem
        rw [isFree_iff, hdirty, hwear]
        decide
      have hold : ¬ isFree cfg K c = true := fun hfree => h.free_not_owned hc hfree ⟨id, f, hf, hmem⟩
      rw [Option.elim_some, Bool.eq_false_iff.mpr hnew, Bool.eq_false_iff.mpr hold]
    · unfold isFree
      rw [Option.elim_some, putAll_other (by rwa [map_fst_wipes])]

/-- `set` up to the point where the old file is deleted. -/
theorem on_setValue_old {β : Option Int} {o' : Env} {ps : List (Nat × List UInt8)} (hc : cfg.Ok) (ho : Mounted cfg pg o)
    (hs : Store cfg K m) (hcache : Cache cfg o m) (hpos : 0 < id) (hlt : id < nodeEnd) (hwear : cfg.wear = true)
    (hnew : ∀ ret, On cfg pg (setNew cfg id d ret) (o.touch id) (putAll (oldPuts K m id) K) β o' ps) :
    On cfg pg (setValue cfg id d) o K β o' (oldPuts K m id ++ ps) := by
  have hfind := on_findFirst hc ho hs hcache hpos hlt
  unfold oldPuts at hnew ⊢
  cases hf : m id with
  | none =>
    rw [hf] at hfind hnew
    exact hfind.peek hc (.ifNeg (by simp [errInvalidId]) (hnew _))
  | some f =>
    rw [hf, Option.elim_some] at hfind
    rw [hf] at hnew
    have hfile := hs.file id f hf
    have hhead := hfile.inside _ hfile.head_mem
    refine hfind.peek hc (.ifPos ⟨by omega, hwear⟩ ?_)
    exact (on_deleteChain hc ho.touch hs hf).bind hc (.ifNeg (by simp) (hnew _))

/-- `set` with wear levelling and without a reclaim. -/
theorem on_setValue_wear (hc : cfg.Ok) (ho : Mounted cfg pg o) (hs : Store cfg K m) (hcache : Cache cfg o m)
    (hpos : 0 < id) (hlt : id < nodeEnd) (hshort : d.length ≤ 65535) (hwear : cfg.wear = true)
    (hready : cfg.need d ≤ (frees cfg K (cfg.firstClust o + 1)).length) :
    ∃ l o', l = (frees cfg K (cfg.firstClust o)).take (cfg.need d) ∧
      On cfg pg (setValue cfg id d) o K (some errSuccess) o'
        (oldPuts K m id ++ chainPuts cfg id d.length (crc16 d) true l d) ∧
      Mounted cfg pg o' ∧ o'.altPageInUse = o.altPageInUse ∧ Cache cfg o' (update m id (some ⟨l, d⟩)) ∧
      Store cfg (putAll (oldPuts K m id ++ chainPuts cfg id d.length (crc16 d) true l d) K)
        (update m id (some ⟨l, d⟩)) := by
  have hfrees : ∀ s, frees cfg (putAll (oldPuts K m id) K) s = frees cfg K s := fun s => hs.frees_oldPuts hc hwear
  have hroom : cfg.need d ≤ (frees cfg K (cfg.firstClust o)).length :=
    hready.trans (frees_suffix (Nat.le_succ _)).length_le
  obtain ⟨l, o', hl, hset, ho', halt, hcache', hstore⟩ :=
    on_setNew hc ho.touch hs.oldPuts hcache.touch.delete (update_self _ _ _) hpos hlt hshort
      (by simp [hwear]) (by rw [hfrees]; exact hroom) fun _ => by rw [hfrees]; exact hready
  rw [update_idem] at hcache' hstore
  exact ⟨l, o', by rw [hl, hfrees]; rfl,
    on_setValue_old hc ho hs hcache hpos hlt hwear fun ret => hset ret (.inr hwear), ho', halt, hcache',
    by rw [putAll_append]; exact hstore⟩

/-- The clusters behind the first one that are on no chain, as their headers tell. -/
def spares (cfg : Config) (K : Clusters) : List Nat :=
  (List.range' 2 (cfg.ncs - 2)).filter fun c =>
    (Node.ofBytes (K c)).idNext = nodeUnused ∨ (Node.ofBytes (K c)).idNext = nodeDirty

theorem Store.vacant_iff (h : Store cfg K m) (hc : cfg.Ok) {c : Nat} (hpos : 0 < c) (hclu : c < cfg.ncs) :
    ((Node.ofBytes (K c)).idNext = nodeUnused ∨ (Node.ofBytes (K c)).idNext = nodeDirty) ↔ ¬ Owned m c := by
  constructor
  · rintro hv ⟨i, f, hf, hmem⟩
    obtain ⟨hlo, hhi⟩ := (h.file i f hf).not_vacant hc hmem
    unfold nodeDirty at hv
    omega
  · exact fun hown => (h.vacant c hpos hclu hown).imp And.left id

/-- What can be written without a reclaim is spare. -/
theorem frees_le_spares (hwear : cfg.wear = true) {s : Nat} (hs : 2 ≤ s) :
    (frees cfg K s).length ≤ (spares cfg K).length := by
  refine (frees_suffix hs).length_le.trans (List.Sublist.length_le (List.monotone_filter_right _ fun c hfree => ?_))
  rcases isFree_iff.mp hfree with hv | ⟨hw, _⟩
  · exact decide_eq_true (.inl hv)
  · rw [hwear] at hw
    cases hw

/-- What is spare can be written after a reclaim. -/
theorem NoDirty.frees_eq {K' : Clusters} (hclean : NoDirty cfg K') (hc : cfg.Ok) (hwear : cfg.wear = true)
    (h : Store cfg K m) (h' : Store cfg K' m) : frees cfg K' 2 = spares cfg K := by
  refine List.filter_congr fun c hmem => ?_
  have hin := List.mem_range'_1.mp hmem
  have hno := hclean c (by omega) (by omega)
  have hiff : isFree cfg K' c = true ↔ ¬ Owned m c := by
    rw [← h'.vacant_iff hc (by omega) (by omega), isFree_iff, hwear]
    exact or_congr_right ⟨fun hdirty => absurd hdirty.1 (by decide), fun hdirty => absurd hdirty hno⟩
  rw [Bool.eq_iff_iff, hiff, decide_eq_true_iff, h.vacant_iff hc (by omega) (by omega)]

/-- The outcome of a `set` with wear levelling: it is successful if there are enough clusters. -/
def SetDone (cfg : Config) (fits : Prop) (m : Nat → Option File) (id : Nat) (d : List UInt8) (r : Option Int) (o : Env)
    (cells : Cells) : Prop :=
  (fits ∧ r = some errSuccess ∧ ∃ l, Good cfg o cells (update m id (some ⟨l, d⟩))) ∨
    (¬ fits ∧ r = some errFsFull ∧ Good cfg o cells (update m id none))

/-- The check for space with a reclaim. -/
theorem Good.ends_makeRoom (hg : Good cfg o cells m) (hc : cfg.Ok) (hn : 0 < n) (hwear : cfg.wear = true)
    (hfull : ¬ n ≤ (frees cfg (cfg.view (cfg.page o) cells) (cfg.firstClust o + 1)).length) :
    Ends cfg (makeRoom cfg n) o cells fun r o' cells' => Good cfg o' cells' m ∧
      ((r = errSuccess ∧ n ≤ (spares cfg (cfg.view (cfg.page o) cells)).length ∧
        n ≤ (frees cfg (cfg.view (cfg.page o') cells') (cfg.firstClust o' + 1)).length) ∨
      (r = errFsFull ∧ ¬ n ≤ (spares cfg (cfg.view (cfg.page o) cells)).length)) := by
  have hcheck : ∀ {o : Env} {cells : Cells}, Good cfg o cells m → Ends cfg (checkChains cfg n) o cells
      fun r o' cells' => r = (if n ≤ (frees cfg (cfg.view (cfg.page o) cells) (cfg.firstClust o + 1)).length then (n : Int)
        else errFsFull) ∧ o' = o ∧ cells' = cells :=
    fun hg => (on_checkChains hc hg.mounted hn).ends_peek hc hg.mounted.bank
  refine (hcheck hg).bind ?_
  rintro r o1 cells1 ⟨rfl, rfl, rfl⟩
  rw [if_neg hfull, if_pos hwear, if_pos (.inl rfl)]
  refine (hg.ends_reclaim hc).bind ?_
  rintro r o2 cells2 ⟨rfl, hg2, hclean, hcursor⟩
  rw [if_pos le_rfl]
  refine (hcheck hg2).bind ?_
  rintro r o3 cells3 ⟨rfl, rfl, rfl⟩
  have hspare : frees cfg (cfg.view (cfg.page o3) cells3) (cfg.firstClust o3 + 1) =
      spares cfg (cfg.view (cfg.page o1) cells1) := by
    rw [Config.firstClust, if_pos hwear, hcursor]
    exact hclean.frees_eq hc hwear hg.holds.store hg2.holds.store
  rw [hspare]
  by_cases hroom : n ≤ (spares cfg (cfg.view (cfg.page o1) cells1)).length
  · rw [if_pos hroom, if_pos rfl]
    exact .pure ⟨hg2, .inl ⟨rfl, hroom, by rw [hspare]; exact hroom⟩⟩
  · rw [if_neg hroom, if_neg (by unfold errFsFull; omega), if_neg (by unfold errFsFull; omega)]
    exact .pure ⟨hg2, .inr ⟨rfl, hroom⟩⟩

/-- `set` of a name that is not stored, where the clusters behind the cursor are not enough. -/
theorem Good.ends_setNew_reclaim (hg : Good cfg o cells m) (hc : cfg.Ok) (hnone : m id = none) (hpos : 0 < id)
    (hlt : id < nodeEnd) (hshort : d.length ≤ 65535) (hwear : cfg.wear = true)
    (hfull : ¬ cfg.need d ≤ (frees cfg (cfg.view (cfg.page o) cells) (cfg.firstClust o + 1)).length) {ret : Int} :
    Ends cfg (setNew cfg id d ret) o cells
      (SetDone cfg (cfg.need d ≤ (spares cfg (cfg.view (cfg.page o) cells)).length) m id d) := by
  have hkeep : update m id none = m := Function.update_eq_self_iff.mpr hnone.symm
  have hwrite : Ends cfg (writeNonExisting cfg id d) o cells fun r o' cells' =>
      (cfg.need d ≤ (spares cfg (cfg.view (cfg.page o) cells)).length ∧ ∃ l, r = (errSuccess, File.head ⟨l, d⟩) ∧
        0 < File.head ⟨l, d⟩ ∧ Good cfg (o'.cached id (File.head ⟨l, d⟩)) cells' (update m id (some ⟨l, d⟩))) ∨
      (¬ cfg.need d ≤ (spares cfg (cfg.view (cfg.page o) cells)).length ∧ r = (errFsFull, 0) ∧ Good cfg o' cells' m) := by
    refine .getObj ?_
    rw [hg.clustSize]
    refine (hg.ends_makeRoom hc need_pos hwear hfull).bind ?_
    rintro r o1 cells1 ⟨hg1, ⟨rfl, hfits, hready⟩ | ⟨rfl, hfits⟩⟩
    · rw [if_pos rfl]
      obtain ⟨l, o2, _, hon, hnew⟩ := on_writeChain_file hc hg1.mounted hg1.holds.store hg1.cache hnone hpos hlt
        hshort (by simp [hwear]) (hready.trans (frees_suffix (Nat.le_succ _)).length_le)
      refine (hg1.holds.on hc hon hnew.alt hnew.store).mono ?_
      rintro r o3 cells3 ⟨rfl, rfl, hh, _⟩
      exact .inl ⟨hfits, l, rfl, hnew.head.1, hnew.mounted.clustSize, hh, hnew.cached⟩
    · rw [if_neg (by decide)]
      exact .pure (.inr ⟨hfits, rfl, hg1⟩)
  unfold setNew
  rw [if_pos (.inr hwear)]
  refine hwrite.bind ?_
  rintro r o1 cells1 (⟨hfits, l, rfl, hhead, hg1⟩ | ⟨hfits, rfl, hg1⟩)
  · refine .getObj ?_
    rw [if_pos ⟨rfl, Nat.ne_of_gt hhead⟩]
    exact .setObj (.pure (.inl ⟨hfits, rfl, l, hg1⟩))
  · refine .getObj ?_
    rw [if_neg (by simp [errFsFull, errSuccess])]
    exact .setObj (.pure (.inr ⟨hfits, rfl, by rw [hkeep]; exact hg1⟩))

/-- `set` with wear levelling. -/
theorem Good.ends_setValue_wear (hg : Good cfg o cells m) (hc : cfg.Ok) (hpos : 0 < id) (hlt : id < nodeEnd)
    (hshort : d.length ≤ 65535) (hwear : cfg.wear = true) :
    Ends cfg (setValue cfg id d) o cells (SetDone cfg (cfg.need d ≤ (spares cfg (putAll
      (oldPuts (cfg.view (cfg.page o) cells) m id) (cfg.view (cfg.page o) cells))).length) m id d) := by
  have hfrees : ∀ s, frees cfg (putAll (oldPuts (cfg.view (cfg.page o) cells) m id) (cfg.view (cfg.page o) cells)) s =
      frees cfg (cfg.view (cfg.page o) cells) s := fun s => hg.holds.store.frees_oldPuts hc hwear
  by_cases hready : cfg.need d ≤ (frees cfg (cfg.view (cfg.page o) cells) (cfg.firstClust o + 1)).length
  · obtain ⟨l, o', _, hon, ho', halt, hcache, hstore⟩ :=
      on_setValue_wear hc hg.mounted hg.holds.store hg.cache hpos hlt hshort hwear hready
    refine (hg.on hc hon ho' halt hstore hcache).mono ?_
    rintro r o1 cells1 ⟨rfl, rfl, hg1, _⟩
    have hcursor := hg.cache.firstClust_pos
    refine .inl ⟨hready.trans ?_, rfl, l, hg1⟩
    rw [← hfrees]
    exact frees_le_spares hwear (by omega)
  · -- the old file is deleted, and the rest runs on what is left
    have hfind := on_findFirst hc hg.mounted hg.holds.store hg.cache hpos hlt
    have hrest : ∀ {o1 : Env} {cells1 : Cells} {ret : Int}, Good cfg o1 cells1 (update m id none) → cfg.page o1 = cfg.page o →
        cfg.firstClust o1 = cfg.firstClust o → cfg.view (cfg.page o) cells1 =
          putAll (oldPuts (cfg.view (cfg.page o) cells) m id) (cfg.view (cfg.page o) cells) →
        Ends cfg (setNew cfg id d ret) o1 cells1 (SetDone cfg (cfg.need d ≤ (spares cfg (putAll
          (oldPuts (cfg.view (cfg.page o) cells) m id) (cfg.view (cfg.page o) cells))).length) m id d) := by
      intro o1 cells1 ret hg1 hpage hfirst hview
      refine (hg1.ends_setNew_reclaim hc (update_self _ _ _) hpos hlt hshort hwear ?_).mono ?_
      · rw [hpage, hfirst, hview, hfrees]
        exact hready
      · intro r o2 cells2 hdone
        rw [hpage, hview] at hdone
        simpa only [SetDone, update_idem] using hdone
    have hgt : Good cfg (o.touch id) cells m := ⟨hg.clustSize, hg.holds, hg.cache.touch⟩
    have hstore : Store cfg (putAll (oldPuts (cfg.view (cfg.page o) cells) m id) (cfg.view (cfg.page o) cells)) _ :=
      hg.holds.store.oldPuts
    cases hf : m id with
    | none =>
      have hkeep : update m id none = m := Function.update_eq_self_iff.mpr hf.symm
      rw [hf, Option.elim_none] at hfind
      refine (hfind.ends_peek hc hg.mounted.bank).bind ?_
      rintro r o1 cells1 ⟨rfl, rfl, rfl⟩
      exact .ifNeg (by simp [errInvalidId]) (hrest (by rw [hkeep]; exact hgt) rfl rfl (by unfold oldPuts; rw [hf]; rfl))
    | some f =>
      have hfile := hg.holds.store.file id f hf
      have hhead := hfile.inside _ hfile.head_mem
      have hputs : oldPuts (cfg.view (cfg.page o) cells) m id = wipes (cfg.view (cfg.page o) cells) f.chain := by
        unfold oldPuts
        rw [hf]
        rfl
      rw [hputs] at hstore hrest ⊢
      rw [hf, Option.elim_some] at hfind
      refine (hfind.ends_peek hc hg.mounted.bank).bind ?_
      rintro r o1 cells1 ⟨rfl, rfl, rfl⟩
      refine .ifPos ⟨by omega, hwear⟩ ?_
      refine (hgt.on hc (on_deleteChain hc hgt.mounted hgt.holds.store hf) hgt.mounted rfl hstore hgt.cache.delete).bind ?_
      rintro r o2 cells2 ⟨rfl, rfl, hg2, hview⟩
      exact .ifNeg (by simp) (hrest hg2 rfl rfl hview)

end

end Isix.FsEnv
