import Isix.Properties.FsChain

/-!
# Isix.Properties.FsWalk

The loops of the environment store over the clusters of a bank: the searches for
a free cluster and for the first cluster of a value, and the walks that write,
delete and read a chain.  Each has one lemma that says what it returns and what it
writes.
-/

namespace Isix.FsEnv

open Flash Memory

/-- The object works on the bank at `pg`. -/
structure Mounted (cfg : Config) (pg : Nat) (o : Env) : Prop where
  page : cfg.page o = pg
  clustSize : o.clustSize = cfg.cs
  bank : cfg.Bank pg

section

variable {cfg : Config} {pg : Nat} {K : Clusters} {o : Env} {id len crc c k n : Nat} {first : Bool}
  {l t : List Nat} {d : List UInt8}

/-! ## searches -/

theorem on_findFreeLoop (hc : cfg.Ok) (hpg : cfg.Bank pg) (hk : c + k = cfg.ncs) :
    On cfg pg (findFreeLoop cfg pg cfg.cs k c) o K (firstFree (frees cfg K c)) o [] := by
  have hcs := cfg.cs_bounds
  induction k generalizing c with
  | zero =>
    rw [frees_end (by omega)]
    exact .pure _
  | succ k ih =>
    refine (on_flashRead hc hpg (by omega) (by omega) (by omega)).peek hc ?_
    simp only [Node.ofBytes_take]
    rw [frees_step (by omega)]
    by_cases hfree : isFree cfg K c = true
    · rw [if_pos hfree]
      exact .ifPos (isFree_iff.mp hfree) (.pure _)
    · rw [if_neg hfree]
      exact .ifNeg (mt isFree_iff.mpr hfree) (ih (by omega))

theorem on_findFreeCluster (hc : cfg.Ok) (ho : Mounted cfg pg o) {s : Nat} :
    On cfg pg (findFreeCluster cfg s) o K (firstFree (frees cfg K s)) o [] := by
  refine .getObj ?_
  rw [ho.page, ho.clustSize]
  rcases Nat.le_total s cfg.ncs with hle | hle
  · exact on_findFreeLoop hc ho.bank (by show s + (cfg.ncs - s) = cfg.ncs; omega)
  · rw [frees_end hle, show cfg.clusters cfg.cs - s = 0 from Nat.sub_eq_zero_of_le hle]
    exact .pure _

theorem on_checkLoop (hc : cfg.Ok) (ho : Mounted cfg pg o) {fc fnd : Nat} {ret : Int} (hk : fnd + k = n) (hpos : 0 < k) :
    On cfg pg (checkLoop cfg n k fc fnd ret) o K
      (if k ≤ (frees cfg K (fc + 1)).length then (n : Int) else errFsFull) o [] := by
  induction k generalizing fc fnd ret with
  | zero => omega
  | succ k ih =>
    refine (on_findFreeCluster hc ho).peek hc ?_
    cases hf : frees cfg K (fc + 1) with
    | nil => exact .ifNeg (by decide) (.pure _)
    | cons c t =>
      have hmem : c ∈ frees cfg K (fc + 1) := by rw [hf]; exact List.mem_cons_self
      have hle := (mem_frees.mp hmem).1
      rw [firstFree_cons, Int.toNat_natCast]
      refine .ifPos (show (0 : Int) < c by omega) ?_
      by_cases hlast : fnd + 1 = n
      · rw [if_pos hlast, if_pos (by simp; omega), hlast]
        exact .pure _
      · rw [if_neg hlast]
        have hrest : On cfg pg (checkLoop cfg n k c (fnd + 1) (c : Int)) o K _ o [] := ih (by omega) (by omega)
        rw [frees_cons hf] at hrest
        simpa only [List.length_cons, Nat.add_le_add_iff_right] using hrest

/-- `check_chains`: the free clusters behind the start of the search are enough. -/
theorem on_checkChains (hc : cfg.Ok) (ho : Mounted cfg pg o) (hn : 0 < n) :
    On cfg pg (checkChains cfg n) o K
      (if n ≤ (frees cfg K (cfg.firstClust o + 1)).length then (n : Int) else errFsFull) o [] :=
  .getObj (on_checkLoop hc ho (Nat.zero_add n) hn)

/-- The cluster is the first one of a value with the number `id`. -/
def IsHead (K : Clusters) (id c : Nat) : Prop := (Node.ofBytes (K c)).type = 0 ∧ (Node.ofBytes (K c)).idNext = id

instance : Decidable (IsHead K id c) := by unfold IsHead; infer_instance

theorem on_findFirstLoop_none (hc : cfg.Ok) (hpg : cfg.Bank pg) (hk : c + k = cfg.ncs)
    (hnone : ∀ c', c ≤ c' → c' < cfg.ncs → ¬ IsHead K id c') :
    On cfg pg (findFirstLoop cfg pg cfg.cs id k c) o K (errInvalidId, ⟨0, 0, 0, 0, 0⟩) o [] := by
  have hcs := cfg.cs_bounds
  induction k generalizing c with
  | zero => exact .pure _
  | succ k ih =>
    refine (on_flashRead hc hpg (by omega) (by omega) (by omega)).peek hc ?_
    simp only [Node.ofBytes_take]
    exact .ifNeg (hnone c (by omega) (by omega)) (ih (by omega) fun c' hle hlt => hnone c' (by omega) hlt)

theorem on_findFirstLoop_some (hc : cfg.Ok) (hpg : cfg.Bank pg) (hk : c + k = cfg.ncs) {h : Nat} (hle : c ≤ h)
    (hlt : h < cfg.ncs) (hhead : IsHead K id h) (hfirst : ∀ c', c ≤ c' → c' < h → ¬ IsHead K id c') :
    On cfg pg (findFirstLoop cfg pg cfg.cs id k c) o K ((h : Int), Node.ofBytes (K h)) o [] := by
  have hcs := cfg.cs_bounds
  induction k generalizing c with
  | zero => omega
  | succ k ih =>
    refine (on_flashRead hc hpg (by omega) (by omega) (by omega)).peek hc ?_
    simp only [Node.ofBytes_take]
    rcases Nat.lt_or_eq_of_le hle with hlt' | rfl
    · exact .ifNeg (hfirst c (by omega) hlt')
        (ih (by omega) (by omega) fun c' hle hlt => hfirst c' (by omega) hlt)
    · exact .ifPos hhead (.pure _)

/-! ## writing a chain -/

/-- The cluster that is free can be written. -/
def Blank (cfg : Config) (K : Clusters) (c : Nat) : Prop :=
  cfg.chip.overwrites = true ∨ K c = List.replicate cfg.cs 0xFF

theorem Blank.takes {buf : List UInt8} (h : Blank cfg K c) : Takes cfg.chip (K c) buf := by
  rcases h with h | h
  · exact takes_overwrites h
  · rw [h]
    exact takes_erased

/-- The last cluster of a list, or `e`. -/
def lastOr (e : Int) (t : List Nat) : Int := t.getLast?.elim e fun c => (c : Int)

theorem lastOr_cons {e : Int} : lastOr e (c :: t) = lastOr c t := by
  cases t with
  | nil => rfl
  | cons c' t =>
    unfold lastOr
    rw [List.getLast?_cons_cons]
    cases h : (c' :: t).getLast? with
    | none => simp at h
    | some x => rfl

theorem clusterHeader_append_ne {next : Nat} : clusterHeader first id next len crc ++ d ≠ [] := by
  intro h
  have hlen := congrArg List.length h
  rw [List.length_append, length_clusterHeader] at hlen
  cases first <;> simp at hlen

/-- The object after `setLast`. -/
def Env.last (o : Env) (b : Bool) (c : Nat) : Env := { o with lastFreeClust := if b then c else o.lastFreeClust }

theorem Env.last_false : o.last false c = o := rfl

theorem Env.last_pos {b : Bool} (h : b = true → 0 < c) (ho : 0 < o.lastFreeClust) : 0 < (o.last b c).lastFreeClust := by
  cases b with
  | true => exact h rfl
  | false => exact ho

theorem Mounted.last {b : Bool} (h : Mounted cfg pg o) : Mounted cfg pg (o.last b c) := { h with }

theorem on_setLast {b : Bool} : On cfg pg (setLast b c) o K () (o.last b c) [] := .getObj on_setObj

/-- The loop of `write_non_existing` writes the chain, if the search finds its clusters. -/
theorem on_writeLoop (hc : cfg.Ok) (ho : Mounted cfg pg o) {fc2 : Int} (hk : t.length = k)
    (hfills : Fills cfg.cs first (k + 1) d.length) (hfree : t = (frees cfg K (c + 1)).take k)
    (hclu : c < cfg.ncs) (hblank : ∀ c' ∈ c :: t, Blank cfg K c') :
    On cfg pg (writeLoop cfg id len crc (k + 1) first c fc2 d) o K (.ok (errSuccess, lastOr fc2 t))
      (o.last (first && !t.isEmpty) c) (chainPuts cfg id len crc first (c :: t) d) := by
  induction k generalizing c t first d fc2 K o with
  | zero =>
    obtain rfl := List.length_eq_zero_iff.mp hk
    have hroom := header_room cfg first
    have hle : d.length ≤ clusterRoom cfg.cs first := hfills
    have hwrite : On cfg pg (flashWrite cfg pg c cfg.cs (clusterHeader first id nodeEnd len crc ++ d)) o K (.ok ()) o
        [(c, clusterHeader first id nodeEnd len crc ++ d)] :=
      on_flashWrite hc hclu clusterHeader_append_ne
        (by rw [List.length_append, length_clusterHeader]; omega) (hblank c List.mem_cons_self).takes
    refine .getObj ?_
    simp only [ho.page, ho.clustSize]
    rw [List.isEmpty_nil, Bool.not_true, Bool.and_false, Env.last_false]
    exact .ifPos hle (hwrite.bind hc (.pure _))
  | succ k ih =>
    obtain ⟨c', t, rfl⟩ := List.exists_cons_of_length_eq_add_one hk
    have hroom := header_room cfg first
    obtain ⟨hlt, hrest⟩ : clusterRoom cfg.cs first < d.length ∧ _ := hfills
    -- the search finds the next cluster of the list
    obtain ⟨fs, hf⟩ : ∃ fs, frees cfg K (c + 1) = c' :: fs := by
      cases hf : frees cfg K (c + 1) with
      | nil => rw [hf] at hfree; cases hfree
      | cons x fs =>
        rw [hf] at hfree
        injection hfree with hx
        exact ⟨fs, by rw [hx]⟩
    have ht : t = fs.take k := by
      rw [hf] at hfree
      injection hfree
    have hmem : c' ∈ frees cfg K (c + 1) := by rw [hf]; exact List.mem_cons_self
    obtain ⟨hle', hlt', _⟩ := mem_frees.mp hmem
    have hwrite : ∀ o', On cfg pg (flashWrite cfg pg c cfg.cs
        (clusterHeader first id c' len crc ++ d.take (clusterRoom cfg.cs first))) o' K (.ok ()) o'
        [(c, clusterHeader first id c' len crc ++ d.take (clusterRoom cfg.cs first))] := fun o' =>
      on_flashWrite hc hclu clusterHeader_append_ne
        (by rw [List.length_append, length_clusterHeader, List.length_take]; omega)
        (hblank c List.mem_cons_self).takes
    have hother : ∀ (buf : List UInt8) (x : Nat), c < x → put c buf K x = K x := fun buf x hx => put_other (by omega)
    refine .getObj ?_
    simp only [ho.page, ho.clustSize]
    refine .ifNeg (by omega) ((on_findFreeCluster hc ho).peek hc ?_)
    rw [hf, firstFree_cons, Int.toNat_natCast]
    refine on_setLast.bind hc (.ifNeg (show ¬ (c' : Int) < 0 by omega) ?_)
    refine (hwrite _).bind hc ?_
    rw [lastOr_cons, List.isEmpty_cons, Bool.not_false, Bool.and_true]
    refine ih ho.last (by simpa using hk) (by rw [List.length_drop]; exact hrest) ?_ hlt' ?_
    · have hsame : frees cfg (put c (clusterHeader first id c' len crc ++ d.take (clusterRoom cfg.cs first)) K)
          (c' + 1) = frees cfg K (c' + 1) :=
        frees_congr fun x hx _ => by unfold isFree; rw [hother _ x (by omega)]
      exact ht.trans (by rw [← frees_cons hf, ← hsame]; rfl)
    · intro x hx
      have hfrees := List.mem_of_mem_take (hfree ▸ hx)
      have hxle := (mem_frees.mp hfrees).1
      have hkeep : Blank cfg K x := hblank x (List.mem_cons_of_mem _ hx)
      exact hkeep.imp_right fun h => (hother _ x (by omega)).trans h

/-- `write_non_existing` behind the check for space: the chain takes the first free clusters. -/
theorem on_writeChain (hc : cfg.Ok) (ho : Mounted cfg pg o) (hpos : 0 < cfg.firstClust o) (hn : 0 < n)
    (hfills : Fills cfg.cs true n d.length) (hroom : n ≤ (frees cfg K (cfg.firstClust o)).length)
    (hblank : ∀ c ∈ frees cfg K (cfg.firstClust o), Blank cfg K c) :
    ∃ c t o', c :: t = (frees cfg K (cfg.firstClust o)).take n ∧
      On cfg pg (writeChain cfg id d n) o K (errSuccess, c) o'
        (chainPuts cfg id d.length (crc16 d) true (c :: t) d) ∧
      Mounted cfg pg o' ∧ o'.altPageInUse = o.altPageInUse ∧ o'.lru = o.lru ∧
      (0 < o.lastFreeClust → 0 < o'.lastFreeClust) := by
  cases hf : frees cfg K (cfg.firstClust o) with
  | nil =>
    rw [hf] at hroom
    simp at hroom
    omega
  | cons c fs =>
    obtain ⟨k, rfl⟩ : ∃ k, n = k + 1 := ⟨n - 1, by omega⟩
    have hall : ∀ x ∈ c :: fs.take k, x ∈ frees cfg K (cfg.firstClust o) := by
      intro x hx
      rw [hf]
      exact List.cons_subset_cons c (List.take_subset k fs) hx
    have hfrees := fun x hx => mem_frees.mp (hall x hx)
    have hloop : On cfg pg (writeLoop cfg id d.length (crc16 d) (k + 1) true c nodeEnd d) o K
        (.ok (errSuccess, lastOr nodeEnd (fs.take k))) (o.last (true && !(fs.take k).isEmpty) c)
        (chainPuts cfg id d.length (crc16 d) true (c :: fs.take k) d) := by
      refine on_writeLoop hc ho ?_ hfills (by rw [frees_cons hf]) (hfrees c List.mem_cons_self).2.1
        fun x hx => hblank x (hall x hx)
      rw [hf] at hroom
      simpa using hroom
    -- the new cursor is the last cluster, or where it was
    have hcursor : (decide (lastOr nodeEnd (fs.take k) ≠ nodeEnd)) = true → 0 < (lastOr nodeEnd (fs.take k)).toNat := by
      intro hne
      unfold lastOr at hne ⊢
      cases hlast : (fs.take k).getLast? with
      | none => simp [hlast] at hne
      | some x =>
        have hx := (hfrees x (List.mem_cons_of_mem _ (List.mem_of_getLast? hlast))).1
        exact Nat.lt_of_lt_of_le hpos hx
    have hposc := (hfrees c List.mem_cons_self).1
    refine ⟨c, fs.take k, (o.last (true && !(fs.take k).isEmpty) c).last (lastOr nodeEnd (fs.take k) ≠ nodeEnd)
      (lastOr nodeEnd (fs.take k)).toNat, by simp, ?_, ho.last.last, rfl, rfl,
      fun hlast => Env.last_pos hcursor (Env.last_pos (fun _ => by omega) hlast)⟩
    refine .getObj ((on_findFreeCluster hc ho).peek hc ?_)
    rw [hf, firstFree_cons, Int.toNat_natCast]
    refine .ifNeg (by omega) ?_
    rw [← List.append_nil (chainPuts cfg id d.length (crc16 d) true (c :: fs.take k) d)]
    exact hloop.bind hc (on_setLast.bind hc (.pure _))

/-! ## deleting a chain -/

/-- The name, the length and the checksum of a value fit into the header. -/
def HeadFits (id len crc : Nat) : Prop := id < 2 ^ 15 ∧ len < 2 ^ 16 ∧ crc < 2 ^ 16

/-- The number of the next cluster, as `delete_chain` finds it. -/
theorem Written.next (h : Written cfg K id len crc first (c :: t) d) (hfits : HeadFits id len crc)
    (hnext : nextClu t < 2 ^ 15) :
    (if (Node.ofBytes (K c)).type = 0 then (Node.ofBytes (K c)).next else (Node.ofBytes (K c)).idNext) = nextClu t := by
  cases first with
  | true => rw [h.node_first ⟨by simp, hfits.1, by simp only []; omega, hfits.2⟩, if_pos rfl]
  | false =>
    obtain ⟨htype, hid⟩ := h.node_rest hnext
    rw [htype, if_neg (by omega), hid]

/-- A cluster is marked as deleted. -/
theorem on_wipe (hc : cfg.Ok) (hK : ∀ c, (K c).length = cfg.cs) (hclu : c < cfg.ncs) :
    On cfg pg (flashWrite cfg pg c cfg.cs (dirtied (K c))) o K (.ok ()) o [(c, dirtied (K c))] := by
  have hcs := cfg.cs_bounds
  exact on_flashWrite hc hclu (List.length_pos_iff.mp (by rw [length_dirtied]; omega))
    (by rw [length_dirtied]; omega) (takes_dirtied _ (by rw [hK]; omega))

theorem on_deleteLoop (hc : cfg.Ok) (hpg : cfg.Bank pg) (hK : ∀ c, (K c).length = cfg.cs)
    (hfits : HeadFits id len crc) (hnodup : (c :: t).Nodup) (hin : ∀ x ∈ c :: t, x < cfg.ncs)
    (h : Written cfg K id len crc first (c :: t) d) {fuel : Nat} {ret : Int} (hfuel : t.length < fuel) :
    On cfg pg (deleteLoop cfg pg cfg.cs fuel c ret) o K (some errSuccess) o (wipes K (c :: t)) := by
  have hcs := cfg.cs_bounds
  have hfew := hc.few
  induction t generalizing c first d fuel ret K with
  | nil =>
    obtain ⟨fuel, rfl⟩ : ∃ j, fuel = j + 1 := ⟨fuel - 1, by omega⟩
    have hclu := hin c List.mem_cons_self
    have hnext := h.next hfits (nextClu_lt hfew nofun)
    refine .ifNeg (by omega) ((on_flashRead hc hpg hclu (by omega) (by omega)).peek hc ?_)
    simp only [Node.ofBytes_take, hnext]
    refine (on_wipe hc hK hclu).bind hc ?_
    cases fuel with
    | zero => exact .pure _
    | succ fuel => exact .ifPos rfl (.pure _)
  | cons c' t ih =>
    obtain ⟨fuel, rfl⟩ : ∃ j, fuel = j + 1 := ⟨fuel - 1, by omega⟩
    have hclu := hin c List.mem_cons_self
    obtain ⟨hmem, hnodup⟩ := List.nodup_cons.mp hnodup
    have hin' := fun x hx => hin x (List.mem_cons_of_mem _ hx)
    have hnext := h.next hfits (nextClu_lt hfew hin')
    have hother : ∀ x ∈ c' :: t, put c (dirtied (K c)) K x = K x := fun x hx =>
      put_other fun he => hmem (he ▸ hx)
    refine .ifNeg (by omega) ((on_flashRead hc hpg hclu (by omega) (by omega)).peek hc ?_)
    simp only [Node.ofBytes_take, hnext]
    obtain ⟨_, _, _, hrest⟩ := h.cons
    have hlen : ∀ x, (put c (dirtied (K c)) K x).length = cfg.cs := by
      intro x
      by_cases hx : x = c
      · rw [hx, put_self, length_overwrite (by rw [length_dirtied, hK]; omega), hK]
      · rw [put_other hx, hK]
    have hloop : On cfg pg (deleteLoop cfg pg cfg.cs fuel c' 0) o (put c (dirtied (K c)) K) _ o _ :=
      ih hlen hnodup hin' ((hrest (by simp)).2.congr hother) (by simpa using hfuel)
    rw [wipes_congr hother] at hloop
    exact (on_wipe hc hK hclu).bind hc hloop

/-! ## reading a chain -/

/-- What `get` copies from a cluster. -/
theorem Written.data (h : Written cfg K id len crc first (c :: t) d) :
    ((K c).drop (if first then 8 else 2)).take (min d.length (clusterRoom cfg.cs first)) =
      d.take (clusterRoom cfg.cs first) := by
  obtain ⟨rest, hKc, _⟩ := h.cons
  rw [hKc, List.append_assoc, List.drop_left' length_clusterHeader, List.take_append_of_le_length (by simp),
    List.take_take]
  rcases Nat.le_total d.length (clusterRoom cfg.cs first) with hle | hle
  · rw [Nat.min_eq_left hle, Nat.min_eq_left hle, List.take_length, List.take_of_length_le hle]
  · rw [Nat.min_eq_right hle, Nat.min_self]

/-- The loop of `get` copies the bytes of the chain. -/
theorem on_getLoop (hc : cfg.Ok) (hpg : cfg.Bank pg) (hK : ∀ c, (K c).length = cfg.cs) (hin : ∀ x ∈ l, x < cfg.ncs)
    (h : d ≠ [] → Written cfg K id len crc false l d) {fuel : Nat} (hfuel : d.length ≤ fuel) {got : List UInt8} {a : Crc} :
    On cfg pg (getLoop cfg pg cfg.cs fuel (nextClu l) d.length got a) o K (errSuccess, got ++ d, a.feed d) o [] := by
  have hcs := cfg.cs_bounds
  have hfew := hc.few
  induction fuel generalizing l d got a with
  | zero =>
    obtain rfl := List.length_eq_zero_iff.mp (show d.length = 0 by omega)
    rw [List.append_nil]
    exact .pure _
  | succ fuel ih =>
    by_cases hd : d = []
    · subst hd
      rw [List.append_nil]
      exact .ifNeg (by simp) (.pure _)
    · have hw := h hd
      cases l with
      | nil => exact hw.elim
      | cons c t =>
        have hclu := hin c List.mem_cons_self
        have hin' := fun x hx => hin x (List.mem_cons_of_mem _ hx)
        have hnext := nextClu_lt hfew hin'
        have hpos := List.length_pos_iff.mpr hd
        obtain ⟨rest, hKc, hlast, hrest⟩ := hw.cons
        have hword : ofBytes (((K c).take cfg.cs).take 2) = 1 + 2 * nextClu t := by
          rw [List.take_take, Nat.min_eq_left (by omega), hKc, List.append_assoc]
          exact ofBytes_word (by omega)
        have hroom : clusterRoom cfg.cs false = cfg.cs - 2 := rfl
        have hdata : (((K c).take cfg.cs).drop 2).take (min d.length (cfg.cs - 2)) =
            d.take (clusterRoom cfg.cs false) := by
          rw [List.take_of_length_le (hK c).le]
          exact hw.data
        have hloop : On cfg pg (getLoop cfg pg cfg.cs fuel (nextClu t) (d.drop (clusterRoom cfg.cs false)).length
            (got ++ d.take (clusterRoom cfg.cs false)) (a.feed (d.take (clusterRoom cfg.cs false)))) o K _ o [] :=
          ih hin' ?_ (by rw [List.length_drop]; omega)
        · rw [← Crc.feed_append, List.append_assoc, List.take_append_drop, List.length_drop] at hloop
          refine .ifPos ⟨by show c ≠ nodeEnd; omega, hpos⟩ ((on_flashRead hc hpg hclu (by omega) le_rfl).peek hc ?_)
          simp only [hword, hdata]
          refine .ifNeg (by omega) ?_
          rw [show (1 + 2 * nextClu t) / 2 = nextClu t by omega,
            show d.length - min d.length (cfg.cs - 2) = d.length - clusterRoom cfg.cs false by omega]
          exact hloop
        · intro hne
          refine (hrest fun ht => hne ?_).2
          exact List.drop_eq_nil_of_le (hlast ht)

end

end Isix.FsEnv
