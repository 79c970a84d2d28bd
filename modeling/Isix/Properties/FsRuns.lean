import Isix.Properties.FsRewrite

/-!
# Isix.Properties.FsRuns

The environment store over whole runs.  Between calls the medium and the object
hold files, and these have the values of the history; every call keeps this as
long as it is a safe one.  With wear levelling a `set` is safe if the name is not
stored or a reclaim leaves enough clusters; without it, if there is room, or if
the value has one cluster and cannot grow.
-/

namespace Isix.FsEnv

open Function (update update_of_ne update_self)
open Flash Memory

/-! ## calls -/

section

variable {cfg : Config} {cells : Cells} {m : Nat → Option File} {o : Env} {id n : Nat} {d : List UInt8} {α : Type}
  {f : M Env α} {P : α → Env → Cells → Prop}

/-- What a program does on a medium without faults. -/
theorem Ends.run (h : Ends cfg f o cells P) :
    P (f ⟨o, cells, [], []⟩).1 (f ⟨o, cells, [], []⟩).2.obj (f ⟨o, cells, [], []⟩).2.cells ∧
      ∀ op ∈ (f ⟨o, cells, [], []⟩).2.log, op.Inside cfg.chip := by
  obtain ⟨r, o', ops, hdoes, hin, hP⟩ := h
  rw [hdoes []]
  exact ⟨hP, hin⟩

/-- A program has one outcome. -/
theorem Ends.exact (h : Ends cfg f o cells P) : Ends cfg f o cells fun r o' cells' => P r o' cells' ∧
    o' = (f ⟨o, cells, [], []⟩).2.obj ∧ cells' = (f ⟨o, cells, [], []⟩).2.cells := by
  obtain ⟨r, o', ops, hdoes, hin, hP⟩ := h
  refine ⟨r, o', ops, hdoes, hin, hP, ?_⟩
  rw [hdoes []]
  exact ⟨rfl, rfl⟩

theorem nextId_eq (h : id + 1 < 2 ^ 32) : nextId id = id + 1 := Nat.mod_eq_of_lt h

theorem Stored.ends_get (hs : Stored cfg o cells m) (hc : cfg.Ok) (hid : id + 1 < 2 ^ 32) :
    Ends cfg (get cfg id n) o cells fun r o' cells' =>
      (n ≤ 65535 → r = answer (if id + 1 < nodeEnd then (m (id + 1)).map File.data else none) n) ∧
      Stored cfg o' cells' m := by
  unfold get
  rw [nextId_eq hid]
  by_cases hlt : id + 1 < nodeEnd
  · rw [if_pos hlt]
    refine .ifNeg (by omega) ?_
    by_cases hn : n ≤ 65535
    case neg => exact .ifPos (by omega) (.pure ⟨fun h => absurd h hn, hs⟩)
    refine .ifNeg (by omega) ((hs.ends_initFs hc).bind ?_)
    rintro r o1 cells1 ⟨rfl, hg⟩
    have hfound := hg.holds.store.found hc (Nat.succ_pos id) hlt
    obtain ⟨hpos, hclu, hle⟩ : 0 < o1.start (id + 1) ∧ _ := hg.cache.start_spec hc
    have hget : On cfg (cfg.page o1) (getValue cfg (id + 1) n) o1 (cfg.view (cfg.page o1) cells1) _ _ [] :=
      on_getValue hc hg.mounted hg.holds.store.length hfound hpos hclu fun f hf => ?_
    · refine .ifNeg (by decide) ((hget.ends_peek hc hg.mounted.bank).mono ?_)
      rintro r o2 cells2 ⟨rfl, rfl, rfl⟩
      exact ⟨fun _ => rfl, .mounted ⟨hg.clustSize, hg.holds, hg.cache.touch⟩⟩
    · -- a file on the clusters is a file of the store
      have hin := hf.inside _ hf.head_mem
      obtain ⟨g, hg', heq⟩ := (hg.holds.store.head_iff hc (Nat.succ_pos id) hlt hin.1 hin.2).mp (hf.isHead hc)
      rw [heq]
      exact hle g hg' (by rw [← heq]; exact hin.1)
  · rw [if_neg hlt]
    exact .ifPos (by omega) (.pure ⟨fun _ => rfl, hs⟩)

theorem Stored.ends_unset (hs : Stored cfg o cells m) (hc : cfg.Ok) (hid : id + 1 < 2 ^ 32) :
    Ends cfg (unset cfg id) o cells fun _ o' cells' =>
      Stored cfg o' cells' (if id + 1 < nodeEnd then update m (id + 1) none else m) := by
  unfold unset
  rw [nextId_eq hid]
  by_cases hlt : id + 1 < nodeEnd
  · rw [if_pos hlt]
    refine .ifNeg (by omega) ((hs.ends_initFs hc).bind ?_)
    rintro r o1 cells1 ⟨rfl, hg⟩
    obtain ⟨o2, hon, ho, halt, hcache⟩ := on_unsetValue hc hg.mounted hg.holds.store hg.cache (Nat.succ_pos id) hlt
    refine .ifNeg (by decide) ((hg.on hc hon ho halt hg.holds.store.oldPuts hcache).mono ?_)
    rintro r o3 cells3 ⟨rfl, rfl, hg', _⟩
    exact .mounted hg'
  · rw [if_neg hlt]
    exact .ifPos (by omega) (.pure hs)

/-- `set` of a name or a value that the store refuses. -/
theorem ends_set_refused (hid : id + 1 < 2 ^ 32) (h : nodeEnd ≤ id + 1 ∨ 65535 < d.length) :
    Ends cfg (set cfg id d) o cells fun r o' cells' => r ≠ some errSuccess ∧ r ≠ some errFsFull ∧ o' = o ∧ cells' = cells := by
  unfold set
  rw [nextId_eq hid]
  by_cases hlt : nodeEnd ≤ id + 1
  · exact .ifPos hlt (.pure ⟨by decide, by decide, rfl, rfl⟩)
  · exact .ifNeg hlt (.ifPos (by omega) (.pure ⟨by decide, by decide, rfl, rfl⟩))

/-- `set` of a value that the store does not refuse. -/
theorem Stored.ends_set (hs : Stored cfg o cells m) (hc : cfg.Ok) (hlt : id + 1 < nodeEnd) (hshort : d.length ≤ 65535)
    {P : Option Int → Env → Cells → Prop}
    (hset : ∀ o1 cells1, Good cfg o1 cells1 m → o1 = (initFs cfg ⟨o, cells, [], []⟩).2.obj →
      cells1 = (initFs cfg ⟨o, cells, [], []⟩).2.cells → Ends cfg (setValue cfg (id + 1) d) o1 cells1 P) :
    Ends cfg (set cfg id d) o cells P := by
  have hid : id + 1 < 2 ^ 32 := by
    unfold nodeEnd nodeUnused at hlt
    omega
  unfold set
  rw [nextId_eq hid]
  refine .ifNeg (by omega) (.ifNeg (by omega) ((hs.ends_initFs hc).exact.bind ?_))
  rintro r o1 cells1 ⟨⟨rfl, hg⟩, ho, hcells⟩
  exact .ifNeg (by simp) (hset o1 cells1 hg ho hcells)

end

/-! ## runs -/

/-- The files have the values of the history. -/
def Agrees (m : Nat → Option File) (vals : Nat → Option (List UInt8)) : Prop :=
  ∀ id, id + 1 < 2 ^ 32 → vals id = if id + 1 < nodeEnd then (m (id + 1)).map File.data else none

/-- Files are stored that have the values of the history. -/
def Kept (cfg : Config) (s : State) : Prop := ∃ m, Stored cfg s.obj s.cells m ∧ Agrees m s.vals

/-- The clusters of the store, after `init_fs` where the object is a new one. -/
def State.clusters (cfg : Config) (s : State) : Clusters :=
  cfg.view (cfg.page (initFs cfg s.medium).2.obj) (initFs cfg s.medium).2.cells

/-- The clusters from `c` on, as their headers chain them. -/
def chainFrom (K : Clusters) : Nat → Nat → List Nat
  | 0, _ => []
  | fuel + 1, c =>
    let next := if (Node.ofBytes (K c)).type = 0 then (Node.ofBytes (K c)).next else (Node.ofBytes (K c)).idNext
    c :: if next = nodeEnd then [] else chainFrom K fuel next

/-- The chain of a name, which is empty if the name is not stored. -/
def State.chain (cfg : Config) (s : State) (id : Nat) : List Nat :=
  ((List.range' 1 (cfg.ncs - 1)).find? fun c => IsHead (s.clusters cfg) (id + 1) c).elim []
    (chainFrom (s.clusters cfg) cfg.ncs)

/-- The clusters that a value may get without wear levelling: the free ones, or for a
name that is stored its own chain and the free ones behind it. -/
def State.room (cfg : Config) (s : State) (id : Nat) : List Nat :=
  match s.chain cfg id with
  | [] => frees cfg (s.clusters cfg) firstCluster
  | chain => chain ++ frees cfg (s.clusters cfg) (chain.getLastD 0 + 1)

/-- The clusters that a value may get with wear levelling: those behind the first one
that are unused, dirty or on the chain of the name. -/
def State.spare (cfg : Config) (s : State) (id : Nat) : List Nat :=
  (List.range' 2 (cfg.ncs - 2)).filter fun c => (Node.ofBytes (s.clusters cfg c)).idNext = nodeUnused ∨
    (Node.ofBytes (s.clusters cfg c)).idNext = nodeDirty ∨ c ∈ s.chain cfg id

/-- The call is one that the store serves. -/
def Call.Safe (cfg : Config) (s : State) : Call → Prop
  | .set id buf =>
    id + 1 < 2 ^ 32 ∧ (id + 1 < nodeEnd → buf.length ≤ 65535 →
      (cfg.wear = true → s.chain cfg id ≠ [] → cfg.need buf ≤ (s.spare cfg id).length) ∧
      (cfg.wear = false → cfg.need buf ≤ (s.room cfg id).length ∨ s.chain cfg id ≠ [] ∧ (s.room cfg id).length = 1))
  | .unset id => id + 1 < 2 ^ 32
  | .get id _ => id + 1 < 2 ^ 32
  | .remount => True
  | .format => s.obj.altPageInUse = false

/-- One call, without faults of the medium. -/
def Step (cfg : Config) (call : Call) (s s' : State) : Prop := call.Safe cfg s ∧ s' = exec cfg s call

section

variable {cfg : Config} {s s' : State} {cells : Cells} {m : Nat → Option File} {id n : Nat} {d : List UInt8} {call : Call}

theorem Agrees.update {v : Option File} (h : Agrees m s.vals) (hlt : id + 1 < nodeEnd) :
    Agrees (update m (id + 1) v) (update s.vals id (v.map File.data)) := fun i hi => by
  by_cases hid : i = id
  · rw [hid, update_self, update_self, if_pos hlt]
  · rw [update_of_ne hid, update_of_ne (by omega), h i hi]

section

variable (hk : Kept cfg s)

include hk

theorem Kept.read (hc : cfg.Ok) (hid : id + 1 < 2 ^ 32) (hn : n ≤ 65535) :
    s.read cfg id n = answer (s.vals id) n := by
  obtain ⟨m, hs, ha⟩ := hk
  rw [State.read, State.medium, (hs.ends_get hc hid).run.1.1 hn, ha id hid]

theorem Kept.get (hc : cfg.Ok) (hid : id + 1 < 2 ^ 32) : Kept cfg (exec cfg s (.get id n)) := by
  obtain ⟨m, hs, ha⟩ := hk
  exact ⟨m, (hs.ends_get hc hid).run.1.2, ha⟩

theorem Kept.unset (hc : cfg.Ok) (hid : id + 1 < 2 ^ 32) : Kept cfg (exec cfg s (.unset id)) := by
  obtain ⟨m, hs, ha⟩ := hk
  refine ⟨_, (hs.ends_unset hc hid).run.1, ?_⟩
  by_cases hlt : id + 1 < nodeEnd
  · rw [if_pos hlt]
    exact ha.update hlt
  · rw [if_neg hlt]
    -- there was no value
    have hnone : s.vals id = none := by rw [ha id hid, if_neg hlt]
    show Agrees m (update s.vals id none)
    rw [Function.update_eq_self_iff.mpr hnone.symm]
    exact ha

theorem Kept.remount : Kept cfg (exec cfg s .remount) := by
  obtain ⟨m, hs, ha⟩ := hk
  refine ⟨m, ?_, ha⟩
  cases hs with
  | mounted h => exact .unmounted rfl _ h.holds
  | unmounted hsize alt h => exact .unmounted rfl alt h
  | blank hsize h hm => exact .blank rfl h hm

/-- `format` leaves nothing, if the first bank is in use. -/
theorem Kept.format (hc : cfg.Ok) (halt : s.obj.altPageInUse = false) :
    (FsEnv.format cfg s.medium).1 = errSuccess ∧ (exec cfg s .format).vals = (fun _ => none) ∧ Kept cfg (exec cfg s .format) := by
  obtain ⟨m, hs, ha⟩ := hk
  have hend : Ends cfg (FsEnv.format cfg) s.obj s.cells _ := ends_format hc
  obtain ⟨⟨hret, hobj, hh⟩, _⟩ := hend.run
  have hvals : (exec cfg s .format).vals = fun _ => none := if_pos hret
  refine ⟨hret, hvals, fun _ => none, ?_, ?_⟩
  · show Stored cfg (FsEnv.format cfg s.medium).2.obj _ _
    rw [show (FsEnv.format cfg s.medium).2.obj = s.obj from hobj]
    cases hs with
    | mounted h =>
      refine .mounted ⟨h.clustSize, by rw [halt]; exact hh, h.cache.cursor, fun e he => ?_⟩
      obtain ⟨hpos, hclu, _⟩ := h.cache.start e he
      exact ⟨hpos, hclu, nofun⟩
    | unmounted hsize alt h => exact .unmounted hsize false hh
    | blank hsize h hm => exact .unmounted hsize false hh
  · rw [hvals]
    intro id _
    simp

end

/-! ### set -/

/-- The headers chain the clusters of a file. -/
theorem chainFrom_written {K : Clusters} {first : Bool} {len crc c fuel : Nat} {t : List Nat}
    (h : Written cfg K id len crc first (c :: t) d) (hfew : cfg.ncs < nodeEnd) (hfits : HeadFits id len crc)
    (hin : ∀ x ∈ c :: t, x < cfg.ncs) (hfuel : t.length < fuel) : chainFrom K fuel c = c :: t := by
  induction t generalizing c first d fuel with
  | nil =>
    obtain ⟨fuel, rfl⟩ : ∃ j, fuel = j + 1 := ⟨fuel - 1, by omega⟩
    have hnext := h.next hfits (nextClu_lt hfew nofun)
    simp only [chainFrom, hnext]
    rw [if_pos (show nextClu [] = nodeEnd from rfl)]
  | cons x t ih =>
    obtain ⟨fuel, rfl⟩ : ∃ j, fuel = j + 1 := ⟨fuel - 1, by omega⟩
    have hin' := fun y hy => hin y (List.mem_cons_of_mem _ hy)
    have hnext := h.next hfits (nextClu_lt hfew hin')
    obtain ⟨_, _, _, hrest⟩ := h.cons
    have hx : nextClu (x :: t) = x := rfl
    have hlt := hin' x List.mem_cons_self
    simp only [chainFrom, hnext, hx]
    rw [if_neg (by omega), ih (hrest (by simp)).2 hin' (by simpa using hfuel)]

theorem FileAt.length_chain {K : Clusters} {f : File} (h : FileAt cfg K id f) : f.chain.length < cfg.ncs := by
  have hsub : f.chain ⊆ List.range' 1 (cfg.ncs - 1) := fun x hx => by
    have hin := h.inside x hx
    exact List.mem_range'_1.mpr (by omega)
  have hle := (List.subperm_of_subset h.nodup hsub).length_le
  have hhead := h.inside _ h.head_mem
  rw [List.length_range'] at hle
  omega

section

variable (hs : Store cfg (s.clusters cfg) m) (hc : cfg.Ok) (hlt : id + 1 < nodeEnd)

include hs hc hlt

/-- The chain that is read off the clusters is that of the file. -/
theorem Store.chain_eq : s.chain cfg id = (m (id + 1)).elim [] File.chain := by
  have hiff := fun c => hs.head_iff (c := c) hc (Nat.succ_pos id) hlt
  unfold State.chain
  cases hf : m (id + 1) with
  | none =>
    have hfind : (List.range' 1 (cfg.ncs - 1)).find? (fun c => IsHead (s.clusters cfg) (id + 1) c) = none := by
      refine List.find?_eq_none.mpr fun c hmem hhead => ?_
      rw [List.mem_range'_1] at hmem
      obtain ⟨f, hf', _⟩ := (hiff c (by omega) (by omega)).mp (of_decide_eq_true hhead)
      rw [hf] at hf'
      cases hf'
    rw [hfind]
    rfl
  | some f =>
    have hfile := hs.file _ f hf
    have hhead := hfile.inside _ hfile.head_mem
    have hfind : (List.range' 1 (cfg.ncs - 1)).find? (fun c => IsHead (s.clusters cfg) (id + 1) c) = some f.head := by
      cases hres : (List.range' 1 (cfg.ncs - 1)).find? (fun c => IsHead (s.clusters cfg) (id + 1) c) with
      | none =>
        refine absurd (decide_eq_true (hfile.isHead hc)) (List.find?_eq_none.mp hres f.head ?_)
        exact List.mem_range'_1.mpr (by omega)
      | some c =>
        have hmem := List.mem_range'_1.mp (List.mem_of_find?_eq_some hres)
        have his : IsHead (s.clusters cfg) (id + 1) c := by simpa using List.find?_some hres
        obtain ⟨g, hg, heq⟩ := (hiff c (by omega) (by omega)).mp his
        rw [hf] at hg
        cases hg
        rw [heq]
    obtain ⟨t, ht⟩ := hfile.chain_eq
    have hw := hfile.written
    have hin := hfile.inside
    have hlen := hfile.length_chain
    rw [ht] at hw hin hlen
    rw [hfind, Option.elim_some, Option.elim_some, ht]
    exact chainFrom_written hw hc.few hfile.headFits (fun x hx => (hin x hx).2) (by rw [List.length_cons] at hlen; omega)

theorem Store.chain_eq_nil : s.chain cfg id = [] ↔ m (id + 1) = none := by
  rw [hs.chain_eq hc hlt]
  cases hf : m (id + 1) with
  | none => simp
  | some f =>
    obtain ⟨t, ht⟩ := (hs.file _ f hf).chain_eq
    simp [ht]

/-- The room that is read off the clusters is that of the files. -/
theorem Store.room_eq : s.room cfg id = cfg.room (s.clusters cfg) m (id + 1) := by
  unfold State.room Config.room
  rw [hs.chain_eq hc hlt]
  cases hf : m (id + 1) with
  | none => rfl
  | some f =>
    obtain ⟨t, ht⟩ := (hs.file _ f hf).chain_eq
    simp only [Option.elim_some, Config.chainRoom, ht]

/-- What is spare before the chain of a name is deleted is so after it. -/
theorem Store.spare_eq :
    s.spare cfg id = spares cfg (putAll (FsEnv.oldPuts (s.clusters cfg) m (id + 1)) (s.clusters cfg)) := by
  refine List.filter_congr fun c _ => decide_eq_decide.mpr ?_
  unfold FsEnv.oldPuts
  rw [hs.chain_eq hc hlt]
  cases hf : m (id + 1) with
  | none => simp [putAll]
  | some f =>
    simp only [Option.elim_some]
    by_cases hmem : c ∈ f.chain
    · have hdirty : Dirty (putAll (wipes (s.clusters cfg) f.chain) (s.clusters cfg)) c :=
        dirty_wipes (hs.file _ f hf).nodup hmem
      exact ⟨fun _ => .inr hdirty, fun _ => .inr (.inr hmem)⟩
    · rw [putAll_other (by rwa [map_fst_wipes])]
      simp [hmem]

end

theorem Stored.store_clusters (hs : Stored cfg s.obj s.cells m) (hc : cfg.Ok) : Store cfg (s.clusters cfg) m :=
  (hs.ends_initFs hc).run.1.2.holds.store

/-- The rest of a `set` runs on the clusters that are seen before it. -/
theorem Stored.ends_set_clusters (hs : Stored cfg s.obj s.cells m) (hc : cfg.Ok) (hlt : id + 1 < nodeEnd)
    (hshort : d.length ≤ 65535) {P : Option Int → Env → Cells → Prop}
    (hset : ∀ o1 cells1, Good cfg o1 cells1 m → cfg.view (cfg.page o1) cells1 = s.clusters cfg →
      Ends cfg (setValue cfg (id + 1) d) o1 cells1 P) : Ends cfg (set cfg id d) s.obj s.cells P := by
  refine hs.ends_set hc hlt hshort fun o1 cells1 hg ho hcells => hset o1 cells1 hg ?_
  rw [ho, hcells]
  rfl

/-- A `set` with wear levelling stores the value if there are enough clusters; else the name is not stored. -/
theorem Stored.set_wear (hs : Stored cfg s.obj s.cells m) (hc : cfg.Ok) (hwear : cfg.wear = true) (hlt : id + 1 < nodeEnd)
    (hshort : d.length ≤ 65535) : ∃ v, Stored cfg (exec cfg s (.set id d)).obj (exec cfg s (.set id d)).cells
        (update m (id + 1) v) ∧
      ((cfg.need d ≤ (s.spare cfg id).length ∧ (set cfg id d s.medium).1 = some errSuccess ∧ v.map File.data = some d) ∨
        (¬ cfg.need d ≤ (s.spare cfg id).length ∧ (set cfg id d s.medium).1 = some errFsFull ∧ v = none)) := by
  have hend : Ends cfg (set cfg id d) s.obj s.cells (SetDone cfg (cfg.need d ≤ (s.spare cfg id).length) m (id + 1) d) := by
    refine hs.ends_set_clusters hc hlt hshort fun o1 cells1 hg hview => ?_
    rw [(hs.store_clusters hc).spare_eq hc hlt, ← hview]
    exact hg.ends_setValue_wear hc (Nat.succ_pos id) hlt hshort hwear
  rcases hend.run.1 with ⟨hfits, hret, l, hg⟩ | ⟨hfits, hret, hg⟩
  · exact ⟨some ⟨l, d⟩, .mounted hg, .inl ⟨hfits, hret, rfl⟩⟩
  · exact ⟨none, .mounted hg, .inr ⟨hfits, hret, rfl⟩⟩

/-- A value of one cluster that cannot grow is refused without wear levelling, and stays. -/
theorem Stored.set_plain_full (hs : Stored cfg s.obj s.cells m) (hc : cfg.Ok) (hwear : cfg.wear = false)
    (hlt : id + 1 < nodeEnd) (hshort : d.length ≤ 65535) (hchain : s.chain cfg id ≠ [])
    (hroom : (s.room cfg id).length = 1) (hneed : 1 < cfg.need d) :
    Stored cfg (exec cfg s (.set id d)).obj (exec cfg s (.set id d)).cells m ∧
      (set cfg id d s.medium).1 = some errFsFull := by
  have hstore := hs.store_clusters hc
  obtain ⟨f, hf⟩ := Option.ne_none_iff_exists'.mp (mt (hstore.chain_eq_nil hc hlt).mpr hchain)
  have hend : Ends cfg (set cfg id d) s.obj s.cells fun r o' cells' => Good cfg o' cells' m ∧ r = some errFsFull := by
    refine hs.ends_set_clusters hc hlt hshort fun o1 cells1 hg hview => ?_
    rw [hstore.room_eq hc hlt, Config.room, hf, Option.elim_some, ← hview] at hroom
    have hon := on_setValue_plain_full hc hg.mounted hg.holds.store hg.cache hwear hf hroom hneed
    refine (hon.ends_peek hc hg.mounted.bank).mono ?_
    rintro r o2 cells2 ⟨rfl, rfl, rfl⟩
    exact ⟨⟨hg.clustSize, hg.holds, hg.cache.touch.touch⟩, rfl⟩
  exact ⟨.mounted hend.run.1.1, hend.run.1.2⟩

/-- A `set` without wear levelling stores the value, if there is room. -/
theorem Stored.set_plain (hs : Stored cfg s.obj s.cells m) (hc : cfg.Ok) (hwear : cfg.wear = false) (hlt : id + 1 < nodeEnd)
    (hshort : d.length ≤ 65535) (hroom : cfg.need d ≤ (s.room cfg id).length) :
    ∃ v, Stored cfg (exec cfg s (.set id d)).obj (exec cfg s (.set id d)).cells (update m (id + 1) v) ∧
      (set cfg id d s.medium).1 = some errSuccess ∧ v.map File.data = some d := by
  have hov : cfg.chip.overwrites = true := by
    have hrandom : cfg.canRandomAccess = true := by
      cases h : cfg.canRandomAccess with
      | true => rfl
      | false => simp [Config.wear, h] at hwear
    rw [← hc.random_iff]
    exact hrandom
  have hend : Ends cfg (set cfg id d) s.obj s.cells fun r o' cells' =>
      r = some errSuccess ∧ ∃ l, Good cfg o' cells' (update m (id + 1) (some ⟨l, d⟩)) := by
    refine hs.ends_set_clusters hc hlt hshort fun o1 cells1 hg hview => ?_
    obtain ⟨ps, o2, l, hon, ho2, halt, hcache, hstore2⟩ := on_setValue_plain hc hg.mounted hg.holds.store hg.cache
      (Nat.succ_pos id) hlt hshort hov hwear (by
        show cfg.need d ≤ (cfg.room (cfg.view (cfg.page o1) cells1) m (id + 1)).length
        rw [hview, ← (hs.store_clusters hc).room_eq hc hlt]
        exact hroom)
    refine (hg.on hc hon ho2 halt hstore2 hcache).mono ?_
    rintro r o3 cells3 ⟨rfl, rfl, hg3, _⟩
    exact ⟨rfl, l, hg3⟩
  obtain ⟨hret, l, hg⟩ := hend.run.1
  exact ⟨some ⟨l, d⟩, .mounted hg, hret, rfl⟩

theorem Kept.set (hk : Kept cfg s) (hc : cfg.Ok) (hsafe : Call.Safe cfg s (.set id d)) : Kept cfg (exec cfg s (.set id d)) := by
  obtain ⟨m, hs, ha⟩ := hk
  obtain ⟨hid, hroom⟩ := hsafe
  by_cases href : nodeEnd ≤ id + 1 ∨ 65535 < d.length
  · have hend : Ends cfg (FsEnv.set cfg id d) s.obj s.cells _ := ends_set_refused hid href
    obtain ⟨hret, _, hobj, hcells⟩ : (FsEnv.set cfg id d s.medium).1 ≠ some errSuccess ∧ _ ∧
      (FsEnv.set cfg id d s.medium).2.obj = s.obj ∧ (FsEnv.set cfg id d s.medium).2.cells = s.cells := hend.run.1
    refine ⟨m, ?_, ?_⟩
    · show Stored cfg (FsEnv.set cfg id d s.medium).2.obj (FsEnv.set cfg id d s.medium).2.cells m
      rw [hobj, hcells]
      exact hs
    · show Agrees m (if (FsEnv.set cfg id d s.medium).1 = some errSuccess then _ else s.vals)
      rw [if_neg hret]
      exact ha
  · have hlt : id + 1 < nodeEnd := by omega
    have hshort : d.length ≤ 65535 := by omega
    have hstored : ∀ v, v.map File.data = some d → (FsEnv.set cfg id d s.medium).1 = some errSuccess →
        Agrees (update m (id + 1) v) (exec cfg s (.set id d)).vals := fun v hv hret => by
      show Agrees _ (if (FsEnv.set cfg id d s.medium).1 = some errSuccess then update s.vals id (some d) else s.vals)
      rw [if_pos hret, ← hv]
      exact ha.update hlt
    have hrefused : (FsEnv.set cfg id d s.medium).1 = some errFsFull → Agrees m (exec cfg s (.set id d)).vals :=
      fun hret => by
        show Agrees m (if (FsEnv.set cfg id d s.medium).1 = some errSuccess then _ else s.vals)
        rw [if_neg (by rw [hret]; decide)]
        exact ha
    cases hwear : cfg.wear with
    | false =>
      by_cases hfits : cfg.need d ≤ (s.room cfg id).length
      · obtain ⟨v, hs', hret, hv⟩ := hs.set_plain hc hwear hlt hshort hfits
        exact ⟨_, hs', hstored v hv hret⟩
      · obtain ⟨hchain, hone⟩ := ((hroom hlt hshort).2 hwear).resolve_left hfits
        obtain ⟨hs', hret⟩ := hs.set_plain_full hc hwear hlt hshort hchain hone (by omega)
        exact ⟨m, hs', hrefused hret⟩
    | true =>
      obtain ⟨v, hs', ⟨_, hret, hv⟩ | ⟨hfull, hret, rfl⟩⟩ := hs.set_wear hc hwear hlt hshort
      · exact ⟨_, hs', hstored v hv hret⟩
      · have hchain : s.chain cfg id = [] := not_not.mp fun hne => hfull ((hroom hlt hshort).1 hwear hne)
        have hnone := ((hs.store_clusters hc).chain_eq_nil hc hlt).mp hchain
        rw [Function.update_eq_self_iff.mpr hnone.symm] at hs'
        exact ⟨m, hs', hrefused hret⟩

/-- Every safe call keeps the store. -/
theorem Kept.step (hk : Kept cfg s) (hc : cfg.Ok) (hstep : Step cfg call s s') : Kept cfg s' := by
  obtain ⟨hsafe, rfl⟩ := hstep
  cases call with
  | set id buf => exact hk.set hc hsafe
  | unset id => exact hk.unset hc hsafe
  | get id bufLen => exact hk.get hc hsafe
  | remount => exact hk.remount
  | format => exact (hk.format hc hsafe).2.2

theorem kept_new (hh : NoHeader cfg cells) : Kept cfg (State.new cells) :=
  ⟨fun _ => none, .blank rfl hh rfl, fun id _ => by simp [State.new]⟩

theorem kept_run (hc : cfg.Ok) (hk : Kept cfg s) (hr : Runs.Run (Step cfg) s s') : Kept cfg s' :=
  hr.keeps (fun _ _ _ hk hstep => hk.step hc hstep) hk

end

end Isix.FsEnv
