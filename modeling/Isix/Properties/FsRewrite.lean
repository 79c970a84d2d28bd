import Isix.Properties.FsCalls

/-!
# Isix.Properties.FsRewrite

`set` without wear levelling.  A file that is stored is written over its own
chain: the chain is cut where the new value ends, or it goes on with free clusters
that are behind its last one.
-/

namespace Isix.FsEnv

open Flash Memory

section

variable {cfg : Config} {cells : Cells} {K : Clusters} {m : Nat → Option File} {o : Env} {pg id len crc c k : Nat}
  {d : List UInt8} {f : File} {first : Bool} {t fr : List Nat}

/-- The successor of a cluster as `find_next_cluster` sees it. -/
def seen (K : Clusters) (c : Nat) : Nat :=
  if (Node.ofBytes (K c)).idNext = nodeDirty ∨ (Node.ofBytes (K c)).idNext = nodeUnused then nodeEnd
  else (Node.ofBytes (K c)).idNext

theorem on_findNextCluster (hc : cfg.Ok) (ho : Mounted cfg pg o) (hclu : c < cfg.ncs) :
    On cfg pg (findNextCluster cfg c) o K (seen K c : Int) o [] := by
  have hcs := cfg.cs_bounds
  refine .getObj ?_
  rw [ho.page, ho.clustSize]
  refine (on_flashRead hc ho.bank hclu (by omega) (by omega)).peek hc ?_
  have hid : ofBytes ((K c).take 2) / 2 = (Node.ofBytes (K c)).idNext := rfl
  simp only [hid]
  by_cases h : (Node.ofBytes (K c)).idNext = nodeDirty ∨ (Node.ofBytes (K c)).idNext = nodeUnused
  · rw [seen, if_pos h, if_pos h]
    exact .pure _
  · rw [seen, if_neg h, if_neg h]
    exact .pure _

/-- A cluster that is not written commutes with pieces for others. -/
theorem put_putAll {ps : List (Nat × List UInt8)} {buf : List UInt8} (h : c ∉ ps.map Prod.fst) :
    put c buf (putAll ps K) = putAll ps (put c buf K) := by
  funext x
  by_cases hx : x = c
  · rw [hx, put_self, putAll_other h, putAll_other h, put_self]
  · rw [put_other hx]
    exact (putAll_congr_at (put_other hx)).symm

/-- The old rest of the chain behind a cluster: what `t` says is on the clusters. -/
structure OldRest (cfg : Config) (K : Clusters) (id len crc : Nat) (c : Nat) (t fr : List Nat) : Prop where
  written : t ≠ [] → ∃ d, Written cfg K id len crc false t d
  sorted : (c :: (t ++ fr)).Pairwise (· < ·)
  inside : ∀ x ∈ c :: (t ++ fr), 0 < x ∧ x < cfg.ncs
  free : fr = frees cfg K ((c :: t).getLastD 0 + 1)

theorem OldRest.lt (h : OldRest cfg K id len crc c t fr) {x : Nat} (hx : x ∈ t ++ fr) : c < x :=
  List.rel_of_pairwise_cons h.sorted hx

/-- The next cluster of the chain is an old one or a free one. -/
theorem OldRest.step (h : OldRest cfg K id len crc c t fr) (hc : cfg.Ok) {c' : Nat} {r : List Nat}
    (hr : t ++ fr = c' :: r) (buf : List UInt8) : ∃ t' fr', r = t' ++ fr' ∧ (∀ k, t.drop (k + 1) = t'.drop k) ∧
      OldRest cfg (put c buf K) id len crc c' t' fr' ∧ seen (put c buf K) c' = nextClu t' ∧
      (t = [] → firstFree (frees cfg K (c + 1)) = c') ∧ (t ≠ [] → nextClu t = c') := by
  have hother : ∀ x, c < x → put c buf K x = K x := fun x hx => put_other (by omega)
  have hsorted := h.sorted
  have hinside := h.inside
  have hlt : ∀ x ∈ c' :: r, c < x := fun x hx => h.lt (hr ▸ hx)
  rw [hr] at hsorted hinside
  have hsorted' := List.Pairwise.of_cons hsorted
  cases t with
  | nil =>
    -- the free clusters go on behind the one that is taken
    rw [List.nil_append] at hr
    have hfree : frees cfg K (c + 1) = c' :: r := by rw [← hr]; exact h.free.symm
    have hmem : c' ∈ frees cfg K (c + 1) := by rw [hfree]; exact List.mem_cons_self
    have hseen : seen K c' = nodeEnd := by
      unfold seen
      rw [if_pos]
      rcases isFree_iff.mp (mem_frees.mp hmem).2.2 with hv | hv
      · exact .inr hv
      · exact .inl hv.2
    refine ⟨[], r, rfl, fun k => by simp, ⟨fun h => absurd rfl h, hsorted',
      fun x hx => hinside x (List.mem_cons_of_mem _ hx), ?_⟩, ?_,
      fun _ => by rw [hfree]; rfl, fun h => absurd rfl h⟩
    · have hsame : frees cfg (put c buf K) (c' + 1) = frees cfg K (c' + 1) := frees_congr fun x hx _ => by
        unfold isFree
        rw [hother x (by have := hlt c' List.mem_cons_self; omega)]
      exact (frees_cons hfree).symm.trans hsame.symm
    · unfold seen at hseen ⊢
      rw [hother c' (hlt c' List.mem_cons_self)]
      exact hseen
  | cons x t =>
    rw [List.cons_append] at hr
    injection hr with hx hr
    subst hx
    obtain ⟨dold, hw⟩ := h.written (by simp)
    obtain ⟨_, _, _, hrest⟩ := hw.cons
    have hin' : ∀ y ∈ t, 0 < y ∧ y < cfg.ncs := fun y hy =>
      hinside y (List.mem_cons_of_mem _ (List.mem_cons_of_mem _ (hr ▸ List.mem_append_left _ hy)))
    have hcongr : ∀ y ∈ t, put c buf K y = K y := fun y hy =>
      hother y (hlt y (List.mem_cons_of_mem _ (hr ▸ List.mem_append_left _ hy)))
    refine ⟨t, fr, hr.symm, fun k => rfl, ⟨fun hne => ⟨_, (hrest hne).2.congr hcongr⟩, by rw [hr]; exact hsorted',
      fun y hy => hinside y (List.mem_cons_of_mem _ (hr ▸ hy)), ?_⟩, ?_, nofun, fun _ => rfl⟩
    · have hlast : c < (x :: t).getLastD 0 := by
        have hmem : (x :: t).getLastD 0 ∈ x :: t := by
          rw [List.getLastD_eq_getLast?, List.getLast?_eq_some_getLast (show x :: t ≠ [] by simp)]
          exact List.getLast_mem _
        exact hlt _ (by rw [← hr]; exact List.mem_append_left fr hmem)
      have hsame : frees cfg (put c buf K) ((x :: t).getLastD 0 + 1) = frees cfg K ((x :: t).getLastD 0 + 1) :=
        frees_congr fun y hy _ => by
          unfold isFree
          rw [hother y (by omega)]
      rw [hsame]
      exact h.free
    · have hnext := (hw.node_rest (nextClu_lt hc.few fun y hy => (hin' y hy).2)).2
      unfold seen
      rw [hother x (hlt x List.mem_cons_self), hnext, if_neg]
      cases t with
      | nil => decide
      | cons y t =>
        have hy := hin' y List.mem_cons_self
        have hfew := hc.few
        simp only [nextClu, List.headD_cons]
        unfold nodeDirty
        unfold nodeEnd at hfew
        omega

/-- The outcome of writing over a chain: the rest `w` is deleted, the new chain is `l`. -/
structure Rewritten (cfg : Config) (pg : Nat) (o o' : Env) (K : Clusters) (ps : List (Nat × List UInt8)) (id len crc : Nat)
    (first : Bool) (w l : List Nat) (d : List UInt8) : Prop where
  puts : putAll ps K = putAll (chainPuts cfg id len crc first l d) (putAll (wipes K w) K)
  mounted : Mounted cfg pg o'
  alt : o'.altPageInUse = o.altPageInUse
  lru : o'.lru = o.lru
  cursor : 0 < o.lastFreeClust → 0 < o'.lastFreeClust

/-- The successor of the cluster that the loop works on. -/
theorem on_nextOf (hc : cfg.Ok) (ho : Mounted cfg pg o) (hclu : c < cfg.ncs) {next : Int}
    (hnext : if first then next = nextClu t else seen K c = nextClu t) :
    On cfg pg (nextOf cfg first c next) o K (nextClu t : Int) o [] := by
  cases first with
  | true =>
    rw [show next = (nextClu t : Int) from hnext]
    exact .ifPos rfl (.pure _)
  | false =>
    rw [← show seen K c = nextClu t from hnext]
    exact .ifNeg (by simp) (on_findNextCluster hc ho hclu)

/-- The rest of the old chain is deleted. -/
theorem on_dropRest (hc : cfg.Ok) (ho : Mounted cfg pg o) (hK : ∀ c, (K c).length = cfg.cs) (hfits : HeadFits id len crc)
    (h : OldRest cfg K id len crc c t fr) :
    On cfg pg (dropRest cfg (nextClu t : Int)) o K (some errSuccess) o (wipes K t) := by
  have hfew := hc.few
  cases t with
  | nil => exact .ifPos rfl (.pure _)
  | cons x t =>
    obtain ⟨dold, hw⟩ := h.written (by simp)
    have hin : ∀ y ∈ x :: t, 0 < y ∧ y < cfg.ncs := fun y hy => h.inside y (List.mem_cons_of_mem _ (List.mem_append_left _ hy))
    have hx := hin x List.mem_cons_self
    have hsorted := (List.Pairwise.of_cons h.sorted).sublist (List.sublist_append_left (x :: t) fr)
    refine .ifNeg ?_ (on_deleteChain_written hc ho hK hfits (hsorted.imp fun h => Nat.ne_of_lt h) (fun y hy => (hin y hy).2) hw)
    show ¬ ((x : Nat) : Int) = (nodeEnd : Nat)
    omega

/-- The loop of `write_existing` leaves the new value on the old chain, which is cut or goes on with free clusters. -/
theorem on_existingLoop {lold cold : Nat} (hc : cfg.Ok) (ho : Mounted cfg pg o) (hov : cfg.chip.overwrites = true)
    (hK : ∀ c, (K c).length = cfg.cs) (hfits : HeadFits id lold cold) (hrest : OldRest cfg K id lold cold c t fr)
    {next : Int} (hnext : if first then next = nextClu t else seen K c = nextClu t)
    (hk : k ≤ (t ++ fr).length) (hfills : Fills cfg.cs first (k + 1) d.length) :
    ∃ ps o', On cfg pg (existingLoop cfg id len crc (k + 1) first c next d) o K (some errSuccess) o' ps ∧
      Rewritten cfg pg o o' K ps id len crc first (t.drop k) ((c :: (t ++ fr)).take (k + 1)) d := by
  induction k generalizing c t fr first d next K o with
  | zero =>
    have hroom := header_room cfg first
    have hle : d.length ≤ clusterRoom cfg.cs first := hfills
    have hclu := hrest.inside c List.mem_cons_self
    have hwrite : ∀ K', On cfg pg (flashWrite cfg pg c cfg.cs (clusterHeader first id nodeEnd len crc ++ d)) o K' (.ok ()) o
        [(c, clusterHeader first id nodeEnd len crc ++ d)] := fun K' =>
      on_flashWrite hc hclu.2 clusterHeader_append_ne (by rw [List.length_append, length_clusterHeader]; omega)
        (takes_overwrites hov)
    refine ⟨wipes K t ++ ([(c, clusterHeader first id nodeEnd len crc ++ d)] ++ []), o, ?_,
      ⟨by rw [putAll_append]; rfl, ho, rfl, rfl, fun h => h⟩⟩
    refine .getObj ?_
    simp only [ho.page, ho.clustSize]
    refine (on_nextOf hc ho hclu.2 hnext).peek hc (.ifNeg (by omega) (.ifPos hle ?_))
    exact (on_dropRest hc ho hK hfits hrest).bind hc (.ifNeg (by simp) ((hwrite _).bind hc (.pure _)))
  | succ k ih =>
    have hroom := header_room cfg first
    obtain ⟨hlt, hfills'⟩ : clusterRoom cfg.cs first < d.length ∧ _ := hfills
    have hclu := hrest.inside c List.mem_cons_self
    obtain ⟨c', r, hr⟩ : ∃ c' r, t ++ fr = c' :: r := List.exists_cons_of_length_pos (by omega)
    have hc' := hrest.inside c' (List.mem_cons_of_mem _ (hr ▸ List.mem_cons_self))
    have hwrite : ∀ o', On cfg pg (flashWrite cfg pg c cfg.cs
        (clusterHeader first id c' len crc ++ d.take (clusterRoom cfg.cs first))) o' K (.ok ()) o'
        [(c, clusterHeader first id c' len crc ++ d.take (clusterRoom cfg.cs first))] := fun o' =>
      on_flashWrite hc hclu.2 clusterHeader_append_ne
        (by rw [List.length_append, length_clusterHeader, List.length_take]; omega) (takes_overwrites hov)
    obtain ⟨t', fr', rfl, hdrop, hrest', hseen, hempty, hold⟩ := hrest.step hc hr
      (clusterHeader first id c' len crc ++ d.take (clusterRoom cfg.cs first))
    have hextend : On cfg pg (extendChain cfg c (nextClu t : Int)) o K (c' : Int) o [] := by
      by_cases ht : t = []
      · rw [← hempty ht, ht]
        exact .ifPos rfl (on_findFreeCluster hc ho)
      · rw [hold ht]
        refine .ifNeg ?_ (.pure _)
        have hfew := hc.few
        omega
    have hlen : ∀ x, (put c (clusterHeader first id c' len crc ++ d.take (clusterRoom cfg.cs first)) K x).length = cfg.cs :=
      length_put hK (by rw [List.length_append, length_clusterHeader, List.length_take]; omega)
    obtain ⟨ps, o', hloop, hrew⟩ : ∃ ps o', On cfg pg (existingLoop cfg id len crc (k + 1) false c' nodeEnd
        (d.drop (clusterRoom cfg.cs first))) (o.last first c) _ (some errSuccess) o' ps ∧ _ :=
      ih ho.last hlen hrest' hseen (by rw [hr] at hk; simpa using hk) (by rw [List.length_drop]; exact hfills')
    refine ⟨[(c, clusterHeader first id c' len crc ++ d.take (clusterRoom cfg.cs first))] ++ ps, o', ?_, ?_, hrew.mounted,
      hrew.alt, hrew.lru, fun h => hrew.cursor (Env.last_pos (fun _ => hclu.1) h)⟩
    · refine .getObj ?_
      simp only [ho.page, ho.clustSize]
      refine (on_nextOf hc ho hclu.2 hnext).peek hc (.ifNeg (by omega) (.ifNeg (by omega) ?_))
      refine hextend.peek hc (.ifNeg (by omega) (on_setLast.peek hc ?_))
      exact (hwrite _).bind hc hloop
    · -- the deleted clusters are behind the one that is written first
      have hafter : ∀ x ∈ t'.drop k, c < x := fun x hx =>
        hrest.lt (hr ▸ List.mem_cons_of_mem _ (List.mem_append_left _ (List.mem_of_mem_drop hx)))
      have hout : c ∉ (wipes K (t'.drop k)).map Prod.fst := by
        rw [map_fst_wipes]
        exact fun hmem => Nat.lt_irrefl c (hafter c hmem)
      show putAll ps (put c _ K) = _
      rw [hrew.puts, wipes_congr fun x hx => put_other (Nat.ne_of_gt (hafter x hx)), hr, hdrop]
      show _ = putAll ((c, _) :: chainPuts cfg id len crc false (c' :: (t' ++ fr').take k) _) _
      rw [putAll_cons, put_putAll hout]
      rfl

/-! ## the file -/

/-- The clusters that a new value of the file gets: the old chain and the free clusters behind it. -/
def Config.chainRoom (cfg : Config) (K : Clusters) (f : File) : List Nat :=
  f.chain ++ frees cfg K (f.chain.getLastD 0 + 1)

theorem le_getLastD {l : List Nat} (h : l.Pairwise (· < ·)) {x : Nat} (hx : x ∈ l) : x ≤ l.getLastD 0 := by
  have hne : l ≠ [] := List.ne_nil_of_mem hx
  rw [List.getLastD_eq_getLast?, List.getLast?_eq_some_getLast hne, Option.getD_some]
  rw [← List.dropLast_append_getLast hne] at h hx
  rcases List.mem_append.mp hx with hx | hx
  · exact Nat.le_of_lt ((List.pairwise_append.mp h).2.2 x hx _ List.mem_cons_self)
  · exact (List.mem_singleton.mp hx).le

theorem FileAt.chainRoom_sorted (h : FileAt cfg K id f) : (cfg.chainRoom K f).Pairwise (· < ·) := by
  refine List.pairwise_append.mpr ⟨h.sorted, frees_sorted, fun x hx y hy => ?_⟩
  have hle := le_getLastD h.sorted hx
  have hge := (mem_frees.mp hy).1
  omega

theorem FileAt.mem_chainRoom (h : FileAt cfg K id f) {x : Nat} (hx : x ∈ cfg.chainRoom K f) : 0 < x ∧ x < cfg.ncs := by
  rcases List.mem_append.mp hx with hx | hx
  · exact h.inside x hx
  · obtain ⟨hge, hlt, _⟩ := mem_frees.mp hx
    exact ⟨by omega, hlt⟩

theorem FileAt.oldRest (h : FileAt cfg K id f) (ht : f.chain = f.head :: t) :
    OldRest cfg K id f.data.length (crc16 f.data) f.head t (frees cfg K ((f.head :: t).getLastD 0 + 1)) := by
  have hw := h.written
  have hsorted := h.chainRoom_sorted
  have hin := fun x => h.mem_chainRoom (x := x)
  unfold Config.chainRoom at hsorted hin
  rw [ht] at hw hsorted hin
  obtain ⟨_, _, _, hrest⟩ := hw.cons
  exact ⟨fun hne => ⟨_, (hrest hne).2⟩, hsorted, fun x hx => hin x hx, rfl⟩

/-- Writing a value over the chain of its file. -/
theorem Store.rewrite (h : Store cfg K m) (hc : cfg.Ok) (hf : m id = some f) (hshort : d.length ≤ 65535)
    (hroom : cfg.need d ≤ (cfg.chainRoom K f).length) :
    Store cfg (putAll (chainPuts cfg id d.length (crc16 d) true ((cfg.chainRoom K f).take (cfg.need d)) d)
      (putAll (wipes K (f.chain.drop (cfg.need d))) K))
      (Function.update m id (some ⟨(cfg.chainRoom K f).take (cfg.need d), d⟩)) := by
  have hfile := h.file id f hf
  have hsub : ∀ x ∈ (cfg.chainRoom K f).take (cfg.need d), x ∈ cfg.chainRoom K f := fun x hx => List.mem_of_mem_take hx
  have hnotBut : ∀ x ∈ cfg.chainRoom K f, ¬ OwnedBut m id x := by
    intro x hx hbut
    rcases List.mem_append.mp hx with hx | hx
    · exact h.owned_iff hf hx hbut
    · exact h.free_not_owned hc (mem_frees.mp hx).2.2 hbut.owned
  have hsorted : ((cfg.chainRoom K f).take (cfg.need d)).Pairwise (· < ·) :=
    hfile.chainRoom_sorted.sublist (List.take_sublist _ _)
  have hlen : ((cfg.chainRoom K f).take (cfg.need d)).length = cfg.need d := by rw [List.length_take, Nat.min_eq_left hroom]
  have hfills : Fills cfg.cs true ((cfg.chainRoom K f).take (cfg.need d)).length d.length := by rw [hlen]; exact fills_need
  have hother : ∀ x, x ∉ (cfg.chainRoom K f).take (cfg.need d) →
      putAll (chainPuts cfg id d.length (crc16 d) true ((cfg.chainRoom K f).take (cfg.need d)) d)
        (putAll (wipes K (f.chain.drop (cfg.need d))) K) x = putAll (wipes K (f.chain.drop (cfg.need d))) K x :=
    fun x hx => putAll_other (by rwa [map_fst_chainPuts])
  have hkeep : ∀ x, x ∉ (cfg.chainRoom K f).take (cfg.need d) → x ∉ f.chain.drop (cfg.need d) →
      putAll (chainPuts cfg id d.length (crc16 d) true ((cfg.chainRoom K f).take (cfg.need d)) d)
        (putAll (wipes K (f.chain.drop (cfg.need d))) K) x = K x := fun x hx hx' => by
    rw [hother x hx, putAll_other (by rwa [map_fst_wipes])]
  have hchain : ∀ x ∈ f.chain, x ∈ cfg.chainRoom K f := fun x hx => List.mem_append_left _ hx
  refine h.replace (length_putAll (length_putAll h.length length_wipes) (length_chainPuts hfills)) (hkeep 0 ?_ ?_)
    (fun x hx => hkeep x (fun hmem => hnotBut x (hsub x hmem) hx)
      fun hmem => hnotBut x (hchain x (List.mem_of_mem_drop hmem)) hx) (fun g hg => ?_) fun x hpos hclu hx hmem => ?_
  · exact fun hmem => Nat.lt_irrefl 0 (hfile.mem_chainRoom (hsub 0 hmem)).1
  · exact fun hmem => Nat.lt_irrefl 0 (hfile.inside 0 (List.mem_of_mem_drop hmem)).1
  · cases hg
    exact ⟨⟨hfile.id_pos, hfile.id_lt, hshort, written_chainPuts hfills (hsorted.imp fun h => Nat.ne_of_lt h), hsorted,
      fun x hx => hfile.mem_chainRoom (hsub x hx)⟩, fun x hx => hnotBut x (hsub x hx)⟩
  · have hnew : x ∉ (cfg.chainRoom K f).take (cfg.need d) := hmem _ rfl
    by_cases hdrop : x ∈ f.chain.drop (cfg.need d)
    · right
      have hdirty : Dirty (putAll (wipes K (f.chain.drop (cfg.need d))) K) x :=
        dirty_wipes (hfile.nodup.sublist (List.drop_sublist _ _)) hdrop
      unfold Dirty at hdirty ⊢
      rwa [hother x hnew]
    · unfold Unused Blank Dirty
      rw [hkeep x hnew hdrop]
      refine h.vacant x hpos hclu fun hown => hx (ownedBut_of_owned hown fun g hg hxg => ?_)
      -- the old chain is the part that is kept and the part that is deleted
      rw [hf] at hg
      cases hg
      rw [← List.take_append_drop (cfg.need d) f.chain] at hxg
      rcases List.mem_append.mp hxg with hxg | hxg
      · refine hnew ?_
        unfold Config.chainRoom
        rw [List.take_append]
        exact List.mem_append_left _ hxg
      · exact hdrop hxg

/-! ## set without wear levelling -/

/-- The check for space of `write_existing` never fails. -/
theorem on_growFails (hc : cfg.Ok) (ho : Mounted cfg pg o) {n : Int} : On cfg pg (growFails cfg n) o K false o [] := by
  by_cases hn : 0 < n
  · refine .ifPos hn ((on_checkChains hc ho (by omega)).peek hc ?_)
    have hno : ¬ (0 < (if n.toNat ≤ (frees cfg K (cfg.firstClust o + 1)).length then (n.toNat : Int) else errFsFull) ∧
        (if n.toNat ≤ (frees cfg K (cfg.firstClust o + 1)).length then (n.toNat : Int) else errFsFull) < n) := by
      split <;> (try unfold errFsFull) <;> omega
    rw [decide_eq_false hno]
    exact .pure _
  · exact .ifNeg hn (.pure _)

/-- `write_existing`: the file gets the new value. -/
theorem on_writeExisting (hc : cfg.Ok) (ho : Mounted cfg pg o) (hs : Store cfg K m) (hcache : Cache cfg o m)
    (hf : m id = some f) (hshort : d.length ≤ 65535) (hov : cfg.chip.overwrites = true)
    (hroom : cfg.need d ≤ (cfg.chainRoom K f).length) :
    ∃ ps o', On cfg pg (writeExisting cfg id d) o K (some errSuccess) o' ps ∧ Mounted cfg pg o' ∧
      o'.altPageInUse = o.altPageInUse ∧ Cache cfg o' (Function.update m id (some ⟨(cfg.chainRoom K f).take (cfg.need d), d⟩)) ∧
      Store cfg (putAll ps K) (Function.update m id (some ⟨(cfg.chainRoom K f).take (cfg.need d), d⟩)) := by
  have hfile := hs.file id f hf
  have hhead := hfile.inside _ hfile.head_mem
  obtain ⟨t, ht⟩ := hfile.chain_eq
  have hfind := on_findFirst hc ho hs hcache hfile.id_pos hfile.id_lt
  rw [hf, Option.elim_some, hfile.node hc ht] at hfind
  obtain ⟨k, hk⟩ : ∃ k, cfg.need d = k + 1 := ⟨cfg.need d - 1, (Nat.sub_add_cancel need_pos).symm⟩
  have hchain : cfg.chainRoom K f = f.head :: (t ++ frees cfg K ((f.head :: t).getLastD 0 + 1)) := by
    rw [Config.chainRoom, ht]
    rfl
  obtain ⟨ps, o', hloop, hrew⟩ : ∃ ps o', On cfg pg (existingLoop cfg id d.length (crc16 d) (k + 1) true f.head (nextClu t) d)
      (o.touch id) K (some errSuccess) o' ps ∧ _ :=
    on_existingLoop hc ho.touch hov hs.length hfile.headFits (hfile.oldRest ht) rfl
      (by rw [hchain, hk] at hroom; simpa using hroom) (hk ▸ fills_need)
  have hstore := hs.rewrite hc hf hshort hroom
  refine ⟨ps, o', .getObj ?_, hrew.mounted, hrew.alt, ?_, ?_⟩
  · rw [ho.clustSize]
    refine hfind.peek hc (.ifNeg (show ¬ (f.head : Int) ≤ 0 by omega) ((on_growFails hc ho.touch).peek hc (.ifNeg (by simp) ?_)))
    show On cfg pg (existingLoop cfg id d.length (crc16 d) (cfg.need d) true f.head (nextClu t) d) _ _ _ _ _
    rw [hk]
    exact hloop
  · refine (hcache.touch.congr hrew.lru (hrew.cursor hcache.cursor)).rewrite hf ?_
    rw [hchain, hk]
    rfl
  · rw [hrew.puts]
    have hdrop : f.chain.drop (cfg.need d) = t.drop k := by rw [hk, ht]; rfl
    rw [hdrop, hchain, hk] at hstore
    rw [hchain, hk]
    exact hstore

/-- The clusters that `set` without wear levelling may use. -/
def Config.room (cfg : Config) (K : Clusters) (m : Nat → Option File) (id : Nat) : List Nat :=
  (m id).elim (frees cfg K firstCluster) (cfg.chainRoom K)

/-- `set` without wear levelling, where there is room. -/
theorem on_setValue_plain (hc : cfg.Ok) (ho : Mounted cfg pg o) (hs : Store cfg K m) (hcache : Cache cfg o m)
    (hpos : 0 < id) (hlt : id < nodeEnd) (hshort : d.length ≤ 65535) (hov : cfg.chip.overwrites = true)
    (hwear : cfg.wear = false) (hroom : cfg.need d ≤ (cfg.room K m id).length) :
    ∃ ps o' l, On cfg pg (setValue cfg id d) o K (some errSuccess) o' ps ∧ Mounted cfg pg o' ∧
      o'.altPageInUse = o.altPageInUse ∧ Cache cfg o' (Function.update m id (some ⟨l, d⟩)) ∧
      Store cfg (putAll ps K) (Function.update m id (some ⟨l, d⟩)) := by
  have hfind := on_findFirst hc ho hs hcache hpos hlt
  unfold Config.room at hroom
  cases hf : m id with
  | none =>
    rw [hf] at hfind hroom
    have hfirst : cfg.firstClust (o.touch id) = firstCluster := by
      unfold Config.firstClust
      rw [hwear]
      rfl
    obtain ⟨l, o', _, hset, ho', halt, hcache', hstore⟩ := on_setNew hc ho.touch hs hcache.touch hf hpos hlt hshort
      (fun _ => hov) (by rw [hfirst]; exact hroom) (by simp [hwear])
    exact ⟨_, o', l, hfind.peek hc (.ifNeg (by simp [hwear]) (hset _ (.inl rfl))), ho', halt, hcache', hstore⟩
  | some f =>
    rw [hf] at hfind hroom
    rw [Option.elim_some] at hfind
    have hfile := hs.file id f hf
    have hhead := hfile.inside _ hfile.head_mem
    obtain ⟨ps, o', hset, ho', halt, hcache', hstore⟩ := on_writeExisting hc ho.touch hs hcache.touch hf hshort hov hroom
    refine ⟨ps, o', _, hfind.peek hc (.ifNeg (by simp [hwear]) (.ifNeg ?_ hset)), ho', halt, hcache', hstore⟩
    rintro (he | he)
    · unfold errInvalidId at he
      omega
    · rw [hwear] at he
      cases he

/-- A chain of one cluster that cannot go on is left alone. -/
theorem on_existingLoop_full (hc : cfg.Ok) (ho : Mounted cfg pg o) (hnone : frees cfg K (c + 1) = [])
    (hlong : clusterRoom cfg.cs true < d.length) :
    On cfg pg (existingLoop cfg id len crc (k + 1) true c (nextClu [] : Int) d) o K (some errFsFull) o [] := by
  have hextend : On cfg pg (extendChain cfg c (nextClu [] : Int)) o K errFsFull o [] := by
    have hsearch : On cfg pg (findFreeCluster cfg (c + 1)) o K _ o [] := on_findFreeCluster hc ho
    rw [hnone] at hsearch
    exact .ifPos rfl hsearch
  refine .getObj ?_
  simp only [ho.page, ho.clustSize]
  have hnext : On cfg pg (nextOf cfg true c (nextClu [] : Int)) o K _ o [] := .ifPos rfl (.pure _)
  refine hnext.peek hc (.ifNeg (by omega) (.ifNeg (by omega) ?_))
  exact hextend.peek hc (.ifPos (by decide) (.pure _))

/-- `set` without wear levelling, where a value of one cluster cannot grow: nothing is written. -/
theorem on_setValue_plain_full (hc : cfg.Ok) (ho : Mounted cfg pg o) (hs : Store cfg K m) (hcache : Cache cfg o m)
    (hwear : cfg.wear = false) (hf : m id = some f) (hroom : (cfg.chainRoom K f).length = 1) (hneed : 1 < cfg.need d) :
    On cfg pg (setValue cfg id d) o K (some errFsFull) ((o.touch id).touch id) [] := by
  have hfile := hs.file id f hf
  have hhead := hfile.inside _ hfile.head_mem
  obtain ⟨t, ht⟩ := hfile.chain_eq
  rw [Config.chainRoom, ht, List.length_append, List.length_cons] at hroom
  obtain rfl : t = [] := List.length_eq_zero_iff.mp (by omega)
  have hnone : frees cfg K (f.head + 1) = [] := List.length_eq_zero_iff.mp (by simpa using hroom)
  have hfind : ∀ {o : Env}, Mounted cfg pg o → Cache cfg o m → On cfg pg (findFirst cfg id) o K
      ((f.head : Int), ⟨0, id, nextClu [], f.data.length, crc16 f.data⟩) (o.touch id) [] := fun ho hcache => by
    have h := on_findFirst hc ho hs hcache hfile.id_pos hfile.id_lt
    rwa [hf, Option.elim_some, hfile.node hc ht] at h
  obtain ⟨k, hk⟩ : ∃ k, cfg.need d = k + 2 := ⟨cfg.need d - 2, by omega⟩
  have hlong : clusterRoom cfg.cs true < d.length := by
    have hfills : Fills cfg.cs true (k + 2) d.length := hk ▸ fills_need
    exact hfills.1
  have hloop : On cfg pg (existingLoop cfg id d.length (crc16 d) (k + 2) true f.head (nextClu [] : Int) d)
      ((o.touch id).touch id) K _ _ [] := on_existingLoop_full hc ho.touch.touch hnone hlong
  refine (hfind ho hcache).peek hc (.ifNeg (by simp [hwear]) (.ifNeg ?_ (.getObj ?_)))
  · unfold errInvalidId
    rw [hwear]
    rintro (he | he)
    · omega
    · cases he
  · rw [ho.touch.clustSize]
    refine (hfind ho.touch hcache.touch).peek hc (.ifNeg (show ¬ (f.head : Int) ≤ 0 by omega)
      ((on_growFails hc ho.touch.touch).peek hc (.ifNeg (by simp) ?_)))
    show On cfg pg (existingLoop cfg id d.length (crc16 d) (cfg.need d) true f.head (nextClu []) d) _ _ _ _ _
    rw [hk]
    exact hloop

end

end Isix.FsEnv
