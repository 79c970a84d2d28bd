import Isix.Properties.FsWalk

/-!
# Isix.Properties.FsStore

The environment store as files.  `Store K m` says that the clusters `K` of a bank
hold the files `m` and nothing else: chains are apart, and every cluster that is
on no chain is unused or dirty.  Writing a chain on free clusters, deleting one
and reclaiming the dirty clusters keep this, each with the files that it leaves.
The cache of the object starts a search at or in front of the cluster it is for.
-/

namespace Isix.FsEnv

open Function (update update_of_ne update_self)
open Flash Memory

/-! ## files -/

structure File where
  chain : List Nat
  data : List UInt8

/-- The file is on the clusters. -/
structure FileAt (cfg : Config) (K : Clusters) (id : Nat) (f : File) : Prop where
  id_pos : 0 < id
  id_lt : id < nodeEnd
  short : f.data.length ≤ 65535
  written : Written cfg K id f.data.length (crc16 f.data) true f.chain f.data
  sorted : f.chain.Pairwise (· < ·)
  inside : ∀ c ∈ f.chain, 0 < c ∧ c < cfg.ncs

/-- The cluster can be written without a reclaim. -/
def Unused (cfg : Config) (K : Clusters) (c : Nat) : Prop :=
  (Node.ofBytes (K c)).idNext = nodeUnused ∧ Blank cfg K c

def Dirty (K : Clusters) (c : Nat) : Prop := (Node.ofBytes (K c)).idNext = nodeDirty

/-- The cluster is on the chain of a file. -/
def Owned (m : Nat → Option File) (c : Nat) : Prop := ∃ id f, m id = some f ∧ c ∈ f.chain

/-- The clusters hold the files, and nothing else. -/
structure Store (cfg : Config) (K : Clusters) (m : Nat → Option File) : Prop where
  length : ∀ c, (K c).length = cfg.cs
  header : pgHdr cfg.cs <+: K 0
  file : ∀ id f, m id = some f → FileAt cfg K id f
  apart : ∀ i j f g c, m i = some f → m j = some g → c ∈ f.chain → c ∈ g.chain → i = j
  vacant : ∀ c, 0 < c → c < cfg.ncs → ¬ Owned m c → Unused cfg K c ∨ Dirty K c

section

variable {cfg : Config} {K K' : Clusters} {m m' : Nat → Option File} {id c n : Nat} {f : File} {l : List Nat}
  {d : List UInt8} {o : Env} {pg : Nat}

theorem FileAt.headFits (h : FileAt cfg K id f) : HeadFits id f.data.length (crc16 f.data) := by
  have hlt := h.id_lt
  have hshort := h.short
  unfold nodeEnd nodeUnused at hlt
  exact ⟨by omega, by omega, Crc.value_lt _⟩

theorem FileAt.nodup (h : FileAt cfg K id f) : f.chain.Nodup := h.sorted.imp fun h => Nat.ne_of_lt h

theorem FileAt.congr (h : FileAt cfg K id f) (hK : ∀ c ∈ f.chain, K' c = K c) : FileAt cfg K' id f where
  id_pos := h.id_pos
  id_lt := h.id_lt
  short := h.short
  written := h.written.congr hK
  sorted := h.sorted
  inside := h.inside

/-- The first cluster of a file. -/
def File.head (f : File) : Nat := nextClu f.chain

section

variable (h : FileAt cfg K id f)

include h

theorem FileAt.chain_eq : ∃ t, f.chain = f.head :: t := by
  cases hch : f.chain with
  | nil =>
    have hw := h.written
    rw [hch] at hw
    exact hw.elim
  | cons c t => exact ⟨t, by simp [File.head, hch, nextClu]⟩

theorem FileAt.head_mem : f.head ∈ f.chain := by
  obtain ⟨t, ht⟩ := h.chain_eq
  rw [ht]
  exact List.mem_cons_self

/-- The header of a file. -/
theorem FileAt.node (hc : cfg.Ok) {t : List Nat} (ht : f.chain = f.head :: t) :
    Node.ofBytes (K f.head) = ⟨0, id, nextClu t, f.data.length, crc16 f.data⟩ := by
  have hw := h.written
  have hin := h.inside
  rw [ht] at hw hin
  have hnext := nextClu_lt hc.few fun x hx => (hin x (List.mem_cons_of_mem _ hx)).2
  have hfits := h.headFits
  exact hw.node_first ⟨by simp, hfits.1, by simp only []; omega, hfits.2⟩

theorem FileAt.isHead (hc : cfg.Ok) : IsHead K id f.head := by
  obtain ⟨t, ht⟩ := h.chain_eq
  unfold IsHead
  rw [h.node hc ht]
  exact ⟨rfl, rfl⟩

end

/-- The other clusters of a chain are of the other type; each has a successor or the end of the chain. -/
theorem Written.rest_node {first : Bool} {len crc : Nat} (h : Written cfg K id len crc first l d)
    (hfew : cfg.ncs < nodeEnd) (hin : ∀ x ∈ l, 0 < x ∧ x < cfg.ncs) : ∀ x ∈ l.tail,
    (Node.ofBytes (K x)).type = 1 ∧ 0 < (Node.ofBytes (K x)).idNext ∧ (Node.ofBytes (K x)).idNext < nodeUnused := by
  induction l generalizing first d with
  | nil => exact fun x hx => by cases hx
  | cons a t ih =>
    intro x hx
    obtain ⟨_, _, _, hrest⟩ := h.cons
    cases t with
    | nil => cases hx
    | cons b t =>
      have htail := (hrest (by simp)).2
      have hin' := fun x hx => hin x (List.mem_cons_of_mem _ hx)
      rcases List.mem_cons.mp hx with rfl | hx
      · have hclu := fun x hx => hin' x (List.mem_cons_of_mem _ hx)
        obtain ⟨htype, hid⟩ := htail.node_rest (nextClu_lt hfew fun x hx => (hclu x hx).2)
        rw [hid]
        refine ⟨htype, ?_⟩
        cases t with
        | nil => decide
        | cons y t =>
          have hy := hclu y List.mem_cons_self
          simp only [nextClu, List.headD_cons]
          unfold nodeEnd at hfew
          omega
      · exact ih htail hin' x hx

/-- A file has one first cluster. -/
theorem FileAt.head_unique (h : FileAt cfg K id f) (hc : cfg.Ok) {i : Nat} (hmem : c ∈ f.chain) (hhead : IsHead K i c) :
    i = id ∧ c = f.head := by
  obtain ⟨t, ht⟩ := h.chain_eq
  rw [ht] at hmem
  rcases List.mem_cons.mp hmem with rfl | hmem
  · exact ⟨hhead.2.symm.trans (h.isHead hc).2, rfl⟩
  · have htype := (h.written.rest_node hc.few h.inside c (by rw [ht]; exact hmem)).1
    rw [hhead.1] at htype
    cases htype

/-- The clusters of a file are neither unused nor dirty. -/
theorem FileAt.not_vacant (h : FileAt cfg K id f) (hc : cfg.Ok) (hmem : c ∈ f.chain) :
    0 < (Node.ofBytes (K c)).idNext ∧ (Node.ofBytes (K c)).idNext < nodeUnused := by
  obtain ⟨t, ht⟩ := h.chain_eq
  rw [ht] at hmem
  rcases List.mem_cons.mp hmem with rfl | hmem
  · have hlt := h.id_lt
    unfold nodeEnd at hlt
    rw [(h.isHead hc).2]
    exact ⟨h.id_pos, by omega⟩
  · exact (h.written.rest_node hc.few h.inside c (by rw [ht]; exact hmem)).2

/-! ## the store -/

/-- The first clusters are those of the files. -/
theorem Store.head_iff (h : Store cfg K m) (hc : cfg.Ok) (hid : 0 < id) (hlt : id < nodeEnd) (hpos : 0 < c)
    (hclu : c < cfg.ncs) : IsHead K id c ↔ ∃ f, m id = some f ∧ c = f.head := by
  constructor
  · intro hhead
    by_cases hown : Owned m c
    · obtain ⟨i, f, hf, hmem⟩ := hown
      obtain ⟨rfl, heq⟩ := (h.file i f hf).head_unique hc hmem hhead
      exact ⟨f, hf, heq⟩
    · have hne := hhead.2
      rcases h.vacant c hpos hclu hown with hv | hv
      · rw [hv.1] at hne
        unfold nodeEnd at hlt
        omega
      · rw [hv] at hne
        unfold nodeDirty at hne
        omega
  · rintro ⟨f, hf, rfl⟩
    exact (h.file id f hf).isHead hc

/-- What is written elsewhere does not matter. -/
theorem Store.congr (h : Store cfg K m) (hlen : ∀ c, (K' c).length = cfg.cs) (hzero : K' 0 = K 0)
    (hown : ∀ c, Owned m c → K' c = K c)
    (hvacant : ∀ c, 0 < c → c < cfg.ncs → ¬ Owned m c → Unused cfg K' c ∨ Dirty K' c) : Store cfg K' m where
  length := hlen
  header := by
    rw [hzero]
    exact h.header
  file id f hf := (h.file id f hf).congr fun c hc => hown c ⟨id, f, hf, hc⟩
  apart := h.apart
  vacant := hvacant

theorem length_put {buf : List UInt8} (hK : ∀ c, (K c).length = cfg.cs) (hbuf : buf.length ≤ cfg.cs) (x : Nat) :
    (put c buf K x).length = cfg.cs := by
  by_cases hx : x = c
  · rw [hx, put_self, length_overwrite (by rwa [hK]), hK]
  · rw [put_other hx, hK]

theorem length_putAll {ps : List (Nat × List UInt8)} (hK : ∀ c, (K c).length = cfg.cs)
    (hps : ∀ p ∈ ps, p.2.length ≤ cfg.cs) (c : Nat) : (putAll ps K c).length = cfg.cs := by
  induction ps generalizing K with
  | nil => exact hK c
  | cons p ps ih =>
    exact ih (length_put hK (hps p List.mem_cons_self)) fun p hp => hps p (List.mem_cons_of_mem _ hp)

theorem length_chainPuts {first : Bool} {len crc : Nat} (hfills : Fills cfg.cs first l.length d.length) :
    ∀ p ∈ chainPuts cfg id len crc first l d, p.2.length ≤ cfg.cs := by
  induction l generalizing first d with
  | nil => exact hfills.elim
  | cons a t ih =>
    have hroom := header_room cfg first
    cases t with
    | nil =>
      have hle : d.length ≤ clusterRoom cfg.cs first := hfills
      intro p hp
      rw [List.mem_singleton.mp hp, List.length_append, length_clusterHeader]
      omega
    | cons b t =>
      intro p hp
      rcases List.mem_cons.mp hp with rfl | hp
      · rw [List.length_append, length_clusterHeader, List.length_take]
        omega
      · exact ih (by rw [List.length_drop]; exact hfills.2) p hp

theorem length_wipes : ∀ p ∈ wipes K l, p.2.length ≤ cfg.cs := by
  intro p hp
  have hcs := cfg.cs_bounds
  obtain ⟨c, _, rfl⟩ := List.mem_map.mp hp
  rw [length_dirtied]
  omega

/-- A deleted cluster is dirty. -/
theorem dirty_wipes (hnodup : l.Nodup) (hmem : c ∈ l) : Dirty (putAll (wipes K l) K) c := by
  unfold Dirty wipes
  rw [putAll_map hnodup hmem]
  exact congrArg Node.idNext ofBytes_dirtied

/-- The cluster is on the chain of another file. -/
def OwnedBut (m : Nat → Option File) (id c : Nat) : Prop := ∃ i f, i ≠ id ∧ m i = some f ∧ c ∈ f.chain

theorem Store.owned_iff (h : Store cfg K m) (hf : m id = some f) (hmem : c ∈ f.chain) : ¬ OwnedBut m id c := by
  rintro ⟨i, g, hi, hg, hc⟩
  exact hi (h.apart i id g f c hg hf hc hmem)

theorem ownedBut_of_owned (h : Owned m c) (hnone : ∀ f, m id = some f → c ∉ f.chain) : OwnedBut m id c := by
  obtain ⟨i, g, hg, hc⟩ := h
  exact ⟨i, g, fun hi => hnone g (hi ▸ hg) hc, hg, hc⟩

theorem OwnedBut.owned (h : OwnedBut m id c) : Owned m c := by
  obtain ⟨i, g, _, hg, hc⟩ := h
  exact ⟨i, g, hg, hc⟩

section

variable (h : Store cfg K m)

include h

/-- One file is written, deleted or written anew, and the others stay. -/
theorem Store.replace {v : Option File} (hlen : ∀ c, (K' c).length = cfg.cs) (hzero : K' 0 = K 0)
    (hkeep : ∀ c, OwnedBut m id c → K' c = K c)
    (hfile : ∀ f, v = some f → FileAt cfg K' id f ∧ ∀ c ∈ f.chain, ¬ OwnedBut m id c)
    (hvacant : ∀ c, 0 < c → c < cfg.ncs → ¬ OwnedBut m id c → (∀ f, v = some f → c ∉ f.chain) →
      Unused cfg K' c ∨ Dirty K' c) : Store cfg K' (update m id v) := by
  refine ⟨hlen, by rw [hzero]; exact h.header, fun i g hg => ?_, fun i j g g' c hg hg' hc hc' => ?_,
    fun c hpos hclu hown => ?_⟩
  · by_cases hi : i = id
    · rw [hi, update_self] at hg
      rw [hi]
      exact (hfile g hg).1
    · rw [update_of_ne hi] at hg
      exact (h.file i g hg).congr fun c hc => hkeep c ⟨i, g, hi, hg, hc⟩
  · by_cases hi : i = id <;> by_cases hj : j = id
    · exact hi.trans hj.symm
    · rw [hi, update_self] at hg
      rw [update_of_ne hj] at hg'
      exact absurd ⟨j, g', hj, hg', hc'⟩ ((hfile g hg).2 c hc)
    · rw [update_of_ne hi] at hg
      rw [hj, update_self] at hg'
      exact absurd ⟨i, g, hi, hg, hc⟩ ((hfile g' hg').2 c hc')
    · rw [update_of_ne hi] at hg
      rw [update_of_ne hj] at hg'
      exact h.apart i j g g' c hg hg' hc hc'
  · refine hvacant c hpos hclu ?_ fun f hf hmem => hown ⟨id, f, by rw [update_self, hf], hmem⟩
    rintro ⟨i, g, hi, hg, hmem⟩
    exact hown ⟨i, g, by rw [update_of_ne hi, hg], hmem⟩

/-- Deleting the chain of a file. -/
theorem Store.delete (hf : m id = some f) :
    Store cfg (putAll (wipes K f.chain) K) (update m id none) := by
  have hfile := h.file id f hf
  have hother : ∀ c, c ∉ f.chain → putAll (wipes K f.chain) K c = K c := fun c hc =>
    putAll_other (by rwa [map_fst_wipes])
  refine h.replace (length_putAll h.length length_wipes) (hother 0 fun h0 => Nat.lt_irrefl 0 (hfile.inside 0 h0).1)
    (fun c hown => hother c fun hmem => h.owned_iff hf hmem hown) nofun fun c hpos hclu hown _ => ?_
  by_cases hmem : c ∈ f.chain
  · exact .inr (dirty_wipes hfile.nodup hmem)
  · unfold Unused Blank Dirty
    rw [hother c hmem]
    refine h.vacant c hpos hclu fun howned => hown (ownedBut_of_owned howned fun g hg hc => ?_)
    rw [hf] at hg
    cases hg
    exact hmem hc

/-- Writing a value that is not stored on free clusters. -/
theorem Store.write (hnone : m id = none) (hpos : 0 < id) (hlt : id < nodeEnd)
    (hshort : d.length ≤ 65535) (hfills : Fills cfg.cs true l.length d.length) (hsorted : l.Pairwise (· < ·))
    (hin : ∀ c ∈ l, 0 < c ∧ c < cfg.ncs) (hown : ∀ c ∈ l, ¬ Owned m c) :
    Store cfg (putAll (chainPuts cfg id d.length (crc16 d) true l d) K) (update m id (some ⟨l, d⟩)) := by
  have hother : ∀ c, c ∉ l → putAll (chainPuts cfg id d.length (crc16 d) true l d) K c = K c := fun c hc =>
    putAll_other (by rwa [map_fst_chainPuts])
  refine h.replace (length_putAll h.length (length_chainPuts hfills)) (hother 0 fun h0 => Nat.lt_irrefl 0 (hin 0 h0).1)
    (fun c hc => hother c fun hmem => hown c hmem hc.owned) (fun f hf => ?_) fun c hcpos hclu hc hmem => ?_
  · cases hf
    exact ⟨⟨hpos, hlt, hshort, written_chainPuts hfills (hsorted.imp fun h => Nat.ne_of_lt h), hsorted, hin⟩,
      fun c hmem hc => hown c hmem hc.owned⟩
  · unfold Unused Blank Dirty
    rw [hother c (hmem _ rfl)]
    exact h.vacant c hcpos hclu fun howned => hc (ownedBut_of_owned howned fun g hg => by simp [hnone] at hg)

/-- The clusters that a search finds are on no chain. -/
theorem Store.free_not_owned (hc : cfg.Ok) (hfree : isFree cfg K c = true) : ¬ Owned m c := by
  rintro ⟨i, f, hf, hmem⟩
  obtain ⟨hpos, hlt⟩ := (h.file i f hf).not_vacant hc hmem
  rcases isFree_iff.mp hfree with hv | ⟨_, hv⟩
  · omega
  · rw [hv] at hpos
    cases hpos

theorem Store.free_blank (hc : cfg.Ok) (hwear : cfg.wear = false → cfg.chip.overwrites = true)
    (hpos : 0 < c) (hclu : c < cfg.ncs) (hfree : isFree cfg K c = true) : Blank cfg K c := by
  rcases h.vacant c hpos hclu (h.free_not_owned hc hfree) with hv | hv
  · exact hv.2
  · rcases isFree_iff.mp hfree with hu | ⟨hw, _⟩
    · unfold Dirty at hv
      rw [hu] at hv
      cases hv
    · exact .inl (hwear hw)

end

/-! ## finding and reading a file -/

/-- Where the search for `id` starts. -/
def Env.start (o : Env) (id : Nat) : Nat := (lruGet id o.lru).1.getD firstCluster

/-- The object after a search for `id`. -/
def Env.touch (o : Env) (id : Nat) : Env := { o with lru := (lruGet id o.lru).2 }

theorem Mounted.touch (h : Mounted cfg pg o) : Mounted cfg pg (o.touch id) := { h with }

/-- `find_first` from the cluster that the cache names. -/
theorem on_findFirst_loop {r : Int × Node} (ho : Mounted cfg pg o) (hstart : o.start id < cfg.ncs)
    (h : On cfg pg (findFirstLoop cfg pg cfg.cs id (cfg.ncs - o.start id) (o.start id)) (o.touch id) K r (o.touch id) []) :
    On cfg pg (findFirst cfg id) o K r (o.touch id) [] := by
  refine .getObj (.setObj ?_)
  show On cfg pg (if cfg.clusters o.clustSize ≤ o.start id then _
    else findFirstLoop cfg (cfg.page o) o.clustSize id (cfg.clusters o.clustSize - o.start id) (o.start id)) (o.touch id)
    K _ _ _
  rw [ho.clustSize, ho.page]
  refine .ifNeg (show ¬ cfg.ncs ≤ o.start id by omega) ?_
  exact h

theorem on_findFirst_none (hc : cfg.Ok) (ho : Mounted cfg pg o) (hstart : o.start id < cfg.ncs)
    (hnone : ∀ c, o.start id ≤ c → c < cfg.ncs → ¬ IsHead K id c) :
    On cfg pg (findFirst cfg id) o K (errInvalidId, ⟨0, 0, 0, 0, 0⟩) (o.touch id) [] := by
  refine on_findFirst_loop ho hstart ?_
  exact on_findFirstLoop_none hc ho.bank (show o.start id + (cfg.ncs - o.start id) = cfg.ncs by omega) hnone

theorem on_findFirst_some (hc : cfg.Ok) (ho : Mounted cfg pg o) (hle : o.start id ≤ c) (hlt : c < cfg.ncs)
    (hhead : IsHead K id c) (hfirst : ∀ c', o.start id ≤ c' → c' < c → ¬ IsHead K id c') :
    On cfg pg (findFirst cfg id) o K ((c : Int), Node.ofBytes (K c)) (o.touch id) [] := by
  refine on_findFirst_loop ho (by omega) ?_
  exact on_findFirstLoop_some hc ho.bank (show o.start id + (cfg.ncs - o.start id) = cfg.ncs by omega) hle hlt hhead hfirst

/-- What `get` returns with a buffer of `n` bytes. -/
def answer (r : Option (List UInt8)) (n : Nat) : Int × List UInt8 :=
  match r with
  | none => (errInvalidId, [])
  | some d => if n < d.length then (errBufOvrflow, []) else (d.length, d)

theorem on_getChain (hc : cfg.Ok) (ho : Mounted cfg pg o) (hK : ∀ c, (K c).length = cfg.cs) (hf : FileAt cfg K id f) :
    On cfg pg (getChain cfg f.head (Node.ofBytes (K f.head)) n) o K (answer (some f.data) n) o [] := by
  have hcs := cfg.cs_bounds
  obtain ⟨t, ht⟩ := hf.chain_eq
  have hw := hf.written
  have hin := hf.inside
  rw [ht] at hw hin
  have hclu := (hin _ List.mem_cons_self).2
  obtain ⟨rest, hKc, hlast, hrest⟩ := hw.cons
  have hroom : clusterRoom cfg.cs true = cfg.cs - 8 := rfl
  have hdata : (((K f.head).take cfg.cs).drop 8).take (min f.data.length (cfg.cs - 8)) =
      f.data.take (clusterRoom cfg.cs true) := by
    rw [List.take_of_length_le (hK _).le]
    exact hw.data
  have hloop : On cfg pg (getLoop cfg pg cfg.cs f.data.length (nextClu t) (f.data.drop (clusterRoom cfg.cs true)).length
      (f.data.take (clusterRoom cfg.cs true)) (crcInit.feed (f.data.take (clusterRoom cfg.cs true)))) o K _ o [] :=
    on_getLoop hc ho.bank hK (fun x hx => (hin x (List.mem_cons_of_mem _ hx)).2)
      (fun hne => (hrest fun h0 => hne (List.drop_eq_nil_of_le (hlast h0))).2) (by rw [List.length_drop]; omega)
  rw [← Crc.feed_append, List.take_append_drop, List.length_drop] at hloop
  unfold answer
  refine .getObj ?_
  rw [ho.page, ho.clustSize]
  refine (on_flashRead hc ho.bank hclu (by omega) le_rfl).peek hc ?_
  rw [hf.node hc ht]
  simp only [hdata]
  by_cases hshort : n < f.data.length
  · rw [if_pos hshort, if_pos hshort]
    exact .pure _
  · rw [if_neg hshort, if_neg hshort]
    rw [show f.data.length - min f.data.length (cfg.cs - 8) = f.data.length - clusterRoom cfg.cs true by omega]
    exact hloop.peek hc (.ifNeg (by simp) (.ifNeg (by simp [crc16]) (.pure _)))

/-- Every search that starts at the first cluster or behind it, but not behind the file, finds this value. -/
def Found (cfg : Config) (K : Clusters) (id : Nat) : Option (List UInt8) → Prop
  | none => ∀ c, 0 < c → c < cfg.ncs → ¬ IsHead K id c
  | some d => ∃ f, FileAt cfg K id f ∧ f.data = d ∧ ∀ c, 0 < c → c < cfg.ncs → IsHead K id c → c = f.head

/-- The store answers with the files. -/
theorem Store.found (h : Store cfg K m) (hc : cfg.Ok) (hpos : 0 < id) (hlt : id < nodeEnd) :
    Found cfg K id ((m id).map File.data) := by
  cases hf : m id with
  | none =>
    intro c hcpos hclu hhead
    obtain ⟨f, hf', _⟩ := (h.head_iff hc hpos hlt hcpos hclu).mp hhead
    rw [hf] at hf'
    cases hf'
  | some f =>
    refine ⟨f, h.file id f hf, rfl, fun c hcpos hclu hhead => ?_⟩
    obtain ⟨g, hg, heq⟩ := (h.head_iff hc hpos hlt hcpos hclu).mp hhead
    rw [hf] at hg
    cases hg
    exact heq

/-! ## the cache -/

/-- The cursor and the cache of the object fit the files. -/
structure Cache (cfg : Config) (o : Env) (m : Nat → Option File) : Prop where
  cursor : 0 < o.lastFreeClust
  start : ∀ e ∈ o.lru, 0 < e.2 ∧ e.2 < cfg.ncs ∧ ∀ f, m e.1 = some f → e.2 ≤ f.head

theorem lruGet_cases (id : Nat) (lru : List (Nat × Nat)) :
    lruGet id lru = (none, lru) ∨ ∃ c, (id, c) ∈ lru ∧ lruGet id lru = (some c, (id, c) :: lru.filter (·.1 ≠ id)) := by
  unfold lruGet
  cases h : lru.find? (·.1 = id) with
  | none => exact .inl rfl
  | some e =>
    have hmem := List.mem_of_find?_eq_some h
    have hid : e.1 = id := by simpa using List.find?_some h
    refine .inr ⟨e.2, ?_, ?_⟩
    · rw [← hid]
      exact hmem
    · simp [← hid]

section

variable (h : Cache cfg o m)

include h

theorem Cache.touch : Cache cfg (o.touch id) m where
  cursor := h.cursor
  start e he := by
    rcases lruGet_cases id o.lru with hget | ⟨c, hmem, hget⟩
    · rw [Env.touch, hget] at he
      exact h.start e he
    · rw [Env.touch, hget] at he
      rcases List.mem_cons.mp he with rfl | he
      · exact h.start _ hmem
      · exact h.start e (List.mem_filter.mp he).1

theorem Cache.start_spec (hc : cfg.Ok) :
    0 < o.start id ∧ o.start id < cfg.ncs ∧ ∀ f, m id = some f → 0 < f.head → o.start id ≤ f.head := by
  have htwo := hc.two
  unfold Env.start
  rcases lruGet_cases id o.lru with hget | ⟨c, hmem, hget⟩
  · rw [hget]
    simp only [Option.getD_none, firstCluster]
    exact ⟨by omega, by omega, fun f _ hpos => hpos⟩
  · rw [hget]
    obtain ⟨hpos, hlt, hle⟩ := h.start _ hmem
    exact ⟨hpos, hlt, fun f hf _ => hle f hf⟩

theorem Cache.congr {o' : Env} (hlru : o'.lru = o.lru) (hcursor : 0 < o'.lastFreeClust) :
    Cache cfg o' m where
  cursor := hcursor
  start := by
    rw [hlru]
    exact h.start

/-- The files may be fewer. -/
theorem Cache.delete : Cache cfg o (update m id none) where
  cursor := h.cursor
  start e he := by
    obtain ⟨hpos, hlt, hle⟩ := h.start e he
    refine ⟨hpos, hlt, fun f hf => ?_⟩
    by_cases hid : e.1 = id
    · rw [hid, update_self] at hf
      cases hf
    · rw [update_of_ne hid] at hf
      exact hle f hf

/-- A new file is put into the cache with a cluster that is not behind its first one. -/
theorem Cache.put {v : Option File} (hpos : 0 < c) (hclu : c < cfg.ncs)
    (hle : ∀ f, v = some f → c ≤ f.head) :
    Cache cfg { o with lru := lruPut id c o.lru } (update m id v) where
  cursor := h.cursor
  start e he := by
    rcases List.mem_cons.mp (List.mem_of_mem_take he) with rfl | he
    · rw [update_self]
      exact ⟨hpos, hclu, hle⟩
    · obtain ⟨he, hid⟩ := List.mem_filter.mp he
      rw [update_of_ne (by simpa using hid)]
      exact h.start e he

/-- The file is written anew from the same first cluster. -/
theorem Cache.rewrite {g : File} (hf : m id = some f) (hhead : g.head = f.head) :
    Cache cfg o (update m id (some g)) where
  cursor := h.cursor
  start e he := by
    obtain ⟨hpos, hlt, hle⟩ := h.start e he
    refine ⟨hpos, hlt, fun f' hf' => ?_⟩
    by_cases hid : e.1 = id
    · rw [hid, update_self] at hf'
      cases hf'
      rw [hhead]
      exact hle f (hid ▸ hf)
    · rw [update_of_ne hid] at hf'
      exact hle f' hf'

end

theorem Cache.empty {o' : Env} (hlru : o'.lru = []) (hcursor : 0 < o'.lastFreeClust) : Cache cfg o' m where
  cursor := hcursor
  start e he := by
    rw [hlru] at he
    cases he

/-- `find_first` with files and cache. -/
theorem on_findFirst (hc : cfg.Ok) (ho : Mounted cfg pg o) (hs : Store cfg K m) (hcache : Cache cfg o m) (hpos : 0 < id)
    (hlt : id < nodeEnd) : On cfg pg (findFirst cfg id) o K
      ((m id).elim (errInvalidId, ⟨0, 0, 0, 0, 0⟩) fun f => ((f.head : Int), Node.ofBytes (K f.head))) (o.touch id) [] := by
  obtain ⟨hspos, hslt, hsle⟩ : 0 < o.start id ∧ _ := hcache.start_spec hc
  cases hf : m id with
  | none =>
    refine on_findFirst_none hc ho hslt fun c hle hclu hhead => ?_
    obtain ⟨f, hf', _⟩ := (hs.head_iff hc hpos hlt (by omega) hclu).mp hhead
    rw [hf] at hf'
    cases hf'
  | some f =>
    have hfile := hs.file id f hf
    obtain ⟨hhpos, hhlt⟩ := hfile.inside _ hfile.head_mem
    refine on_findFirst_some hc ho (hsle f hf hhpos) hhlt (hfile.isHead hc) fun c hle hclu hhead => ?_
    obtain ⟨g, hg, heq⟩ := (hs.head_iff hc hpos hlt (by omega) (by omega)).mp hhead
    rw [hf] at hg
    cases hg
    omega

/-! ## get and unset -/

/-- `get` on a bank where a search finds the value. -/
theorem on_getValue (hc : cfg.Ok) (ho : Mounted cfg pg o) (hK : ∀ c, (K c).length = cfg.cs) {r : Option (List UInt8)}
    (hfound : Found cfg K id r) (hpos : 0 < o.start id) (hclu : o.start id < cfg.ncs)
    (hle : ∀ f, FileAt cfg K id f → o.start id ≤ f.head) :
    On cfg pg (getValue cfg id n) o K (answer r n) (o.touch id) [] := by
  cases r with
  | none =>
    refine (on_findFirst_none hc ho hclu fun c hle hlt => hfound c (by omega) hlt).bind hc ?_
    exact .ifPos (by decide) (.pure _)
  | some d =>
    obtain ⟨f, hf, rfl, hunique⟩ := hfound
    obtain ⟨hhpos, hhlt⟩ := hf.inside _ hf.head_mem
    have hfind := on_findFirst_some hc ho (hle f hf) hhlt (hf.isHead hc) fun c hge hlt hhead => by
      have heq := hunique c (by omega) (by omega) hhead
      omega
    exact hfind.peek hc (.ifNeg (show ¬ (f.head : Int) ≤ 0 by omega) (on_getChain hc ho.touch hK hf))

theorem on_deleteChain_written {first : Bool} {len crc : Nat} {t : List Nat} (hc : cfg.Ok) (ho : Mounted cfg pg o)
    (hK : ∀ c, (K c).length = cfg.cs) (hfits : HeadFits id len crc) (hnodup : (c :: t).Nodup)
    (hin : ∀ x ∈ c :: t, x < cfg.ncs) (h : Written cfg K id len crc first (c :: t) d) :
    On cfg pg (deleteChain cfg c) o K (some errSuccess) o (wipes K (c :: t)) := by
  -- the chain is not longer than the bank
  have hlen : (c :: t).length ≤ cfg.ncs := by
    have hsub : (c :: t) ⊆ List.range cfg.ncs := fun x hx => List.mem_range.mpr (hin x hx)
    have hle := (List.subperm_of_subset hnodup hsub).length_le
    rwa [List.length_range] at hle
  refine .getObj ?_
  rw [ho.page, ho.clustSize]
  refine on_deleteLoop hc ho.bank hK hfits hnodup hin h ?_
  rw [List.length_cons] at hlen
  show t.length < 2 * cfg.ncs + 3
  omega

theorem on_deleteChain (hc : cfg.Ok) (ho : Mounted cfg pg o) (hs : Store cfg K m) (hf : m id = some f) :
    On cfg pg (deleteChain cfg f.head) o K (some errSuccess) o (wipes K f.chain) := by
  have hfile := hs.file id f hf
  obtain ⟨t, ht⟩ := hfile.chain_eq
  have hw := hfile.written
  have hin := hfile.inside
  have hnodup := hfile.nodup
  rw [ht] at hw hin hnodup ⊢
  exact on_deleteChain_written hc ho hs.length hfile.headFits hnodup (fun x hx => (hin x hx).2) hw

/-- The pieces that delete the file, if there is one. -/
def oldPuts (K : Clusters) (m : Nat → Option File) (id : Nat) : List (Nat × List UInt8) :=
  (m id).elim [] fun f => wipes K f.chain

theorem Store.oldPuts (h : Store cfg K m) : Store cfg (putAll (oldPuts K m id) K) (update m id none) := by
  unfold FsEnv.oldPuts
  cases hf : m id with
  | none =>
    rw [Option.elim_none, Function.update_eq_self_iff.mpr hf.symm]
    exact h
  | some f => exact h.delete hf

/-- `unset` deletes the file. -/
theorem on_unsetValue (hc : cfg.Ok) (ho : Mounted cfg pg o) (hs : Store cfg K m) (hcache : Cache cfg o m) (hpos : 0 < id)
    (hlt : id < nodeEnd) : ∃ o', On cfg pg (unsetValue cfg id) o K
        (some ((m id).elim errInvalidId fun _ => errSuccess)) o' (oldPuts K m id) ∧ Mounted cfg pg o' ∧
      o'.altPageInUse = o.altPageInUse ∧ Cache cfg o' (update m id none) := by
  have hfind := on_findFirst hc ho hs hcache hpos hlt
  unfold oldPuts
  cases hf : m id with
  | none =>
    rw [hf] at hfind
    exact ⟨_, hfind.peek hc (.ifNeg (by decide) (.getObj (.setObj (.pure _)))), ho.touch, rfl, hcache.touch.delete⟩
  | some f =>
    rw [hf, Option.elim_some] at hfind
    have hfile := hs.file id f hf
    have hhead := hfile.inside _ hfile.head_mem
    have htwo := hc.two
    refine ⟨{ o.touch id with lru := lruPut id firstCluster (o.touch id).lru }, ?_, { ho with }, rfl, ?_⟩
    · rw [Option.elim_some, Option.elim_some, ← List.append_nil (wipes K f.chain)]
      exact hfind.peek hc (.ifPos (show (0 : Int) < f.head by omega)
        ((on_deleteChain hc ho.touch hs hf).bind hc (.getObj (.setObj (.pure _)))))
    · exact hcache.touch.put (by decide) (by unfold firstCluster; omega) nofun

end

end Isix.FsEnv
