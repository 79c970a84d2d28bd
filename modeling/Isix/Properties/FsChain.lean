import Isix.Properties.FsBank

/-!
# Isix.Properties.FsChain

Chains of clusters.  `Written` says that a value is on a list of clusters, each
with the number of the next one; it has the shape of the loops that write, read
and delete a chain.  The clusters that a search finds free are a list, and the
search for the next one takes the list apart.
-/

namespace Isix.FsEnv

open Flash Memory

/-! ## headers -/

def Node.Fits (n : Node) : Prop :=
  n.type < 2 ∧ n.idNext < 2 ^ 15 ∧ n.next < 2 ^ 16 ∧ n.len < 2 ^ 16 ∧ n.crc < 2 ^ 16

section

variable {n : Node} {l rest : List UInt8} {next : Nat}

theorem Node.length_bytes (n : Node) : n.bytes.length = 8 := by simp [Node.bytes, length_toBytes]

theorem length_dataHeader : (dataHeader next).length = 2 := length_toBytes _ _

theorem ofBytes_word {v : Nat} (h : v < 2 ^ 16) : ofBytes ((toBytes 2 v ++ rest).take 2) = v := by
  rw [List.take_left' (length_toBytes _ _), ofBytes_toBytes, Nat.mod_eq_of_lt (show v < 256 ^ 2 by omega)]

theorem Node.ofBytes_take (l : List UInt8) : Node.ofBytes (l.take 8) = Node.ofBytes l := by
  simp [Node.ofBytes, List.drop_take, List.take_take]

theorem Node.ofBytes_bytes (h : n.Fits) : Node.ofBytes (n.bytes ++ rest) = n := by
  obtain ⟨htype, hid, hnext, hlen, hcrc⟩ := h
  have hdrop : ∀ (a : Nat) (v : Nat) (rest : List UInt8), (toBytes 2 v ++ rest).drop (a + 2) = rest.drop a := by
    intro a v rest
    rw [Nat.add_comm, ← List.drop_drop, List.drop_left' (length_toBytes _ _)]
  unfold Node.ofBytes Node.bytes
  simp only [List.append_assoc]
  rw [hdrop 0, hdrop 2, hdrop 4, hdrop 0, hdrop 2, hdrop 0]
  simp only [List.drop_zero]
  rw [ofBytes_word (by omega), ofBytes_word hnext, ofBytes_word hlen, ofBytes_word hcrc]
  congr 1 <;> omega

/-- A cluster behind the first one of a chain. -/
theorem Node.ofBytes_dataHeader (h : next < 2 ^ 15) :
    (Node.ofBytes (dataHeader next ++ rest)).type = 1 ∧ (Node.ofBytes (dataHeader next ++ rest)).idNext = next := by
  unfold Node.ofBytes dataHeader
  simp only []
  rw [ofBytes_word (by omega)]
  omega

theorem Crc.value_lt (a : Crc) : a.value < 2 ^ 16 := by
  have hhi := a.hi.toNat_lt
  have hlo := a.lo.toNat_lt
  unfold Crc.value
  omega

theorem Crc.feed_append (a : Crc) (xs ys : List UInt8) : a.feed (xs ++ ys) = (a.feed xs).feed ys := List.foldl_append

/-- The header of a deleted cluster. -/
def dirtied (old : List UInt8) : List UInt8 :=
  { Node.ofBytes old with next := nodeDirty, idNext := nodeDirty }.bytes

theorem length_dirtied (old : List UInt8) : (dirtied old).length = 8 := Node.length_bytes _

theorem and_low_bit (b b' : UInt8) : b &&& UInt8.ofNat ((b.toNat + 256 * b'.toNat) % 2) =
    UInt8.ofNat ((b.toNat + 256 * b'.toNat) % 2) := by
  have hlow : UInt8.ofNat ((b.toNat + 256 * b'.toNat) % 2) = b &&& 1 := by
    apply UInt8.toNat.inj
    rw [UInt8.toNat_and, UInt8.toNat_ofNat_of_lt' (by rw [UInt8.size]; omega),
      show (1 : UInt8).toNat = 1 from rfl, Nat.and_one_is_mod]
    omega
  rw [hlow, ← UInt8.and_assoc, UInt8.and_self]

/-- Deleting a cluster only clears bits. -/
theorem takes_dirtied (chip : Chip) (h : 8 ≤ l.length) : Takes chip l (dirtied l) := by
  intro i a b ha hb
  unfold Chip.put
  split
  · rfl
  · match l, h with
    | b0 :: b1 :: b2 :: b3 :: b4 :: b5 :: b6 :: b7 :: rest, _ =>
      have hword : ∀ x y : UInt8, UInt8.ofNat (x.toNat + 256 * y.toNat) = x ∧
          UInt8.ofNat ((x.toNat + 256 * y.toNat) / 256) = y := by
        intro x y
        have hx := x.toNat_lt
        have hy := y.toNat_lt
        constructor
        · apply UInt8.toNat.inj
          simp
        · apply UInt8.toNat.inj
          rw [show (x.toNat + 256 * y.toNat) / 256 = y.toNat by omega]
          simp
      have hbytes : dirtied (b0 :: b1 :: b2 :: b3 :: b4 :: b5 :: b6 :: b7 :: rest) =
          [UInt8.ofNat ((b0.toNat + 256 * b1.toNat) % 2), 0, 0, 0, b4, b5, b6, b7] := by
        have hzero : (b0.toNat + 256 * b1.toNat) % 2 / 256 = 0 := by omega
        simp [dirtied, Node.ofBytes, Node.bytes, ofBytes, toBytes, nodeDirty, hword, hzero]
      rw [hbytes] at hb
      have hlow := and_low_bit b0 b1
      rcases i with _ | _ | _ | _ | _ | _ | _ | _ | i <;> simp at ha hb <;>
        first
        | (subst ha hb; exact hlow)
        | (subst ha hb; simp)

theorem Node.fits_ofBytes (l : List UInt8) : (Node.ofBytes l).Fits := by
  have hlt : ∀ l' : List UInt8, Memory.ofBytes (l'.take 2) < 2 ^ 16 := by
    intro l'
    have h := ofBytes_lt (l'.take 2)
    have hpow := Nat.pow_le_pow_right (show 0 < 256 by omega) (List.length_take_le 2 l')
    omega
  have hword := hlt l
  refine ⟨Nat.mod_lt _ (by omega), ?_, hlt _, hlt _, hlt _⟩
  show Memory.ofBytes (l.take 2) / 2 < _
  omega

theorem ofBytes_dirtied : Node.ofBytes (dirtied l ++ rest) =
    { Node.ofBytes l with next := nodeDirty, idNext := nodeDirty } := by
  obtain ⟨htype, _, _, hlen, hcrc⟩ := Node.fits_ofBytes l
  exact Node.ofBytes_bytes ⟨htype, by simp [nodeDirty], by simp [nodeDirty], hlen, hcrc⟩

end

/-! ## chains -/

section

variable (cfg : Config) (K : Clusters) (id len crc : Nat)

/-- The bytes `d` are on the clusters of the list; `first` says whether the chain starts there. -/
def Written : Bool → List Nat → List UInt8 → Prop
  | _, [], _ => False
  | first, [c], d =>
    d.length ≤ clusterRoom cfg.cs first ∧ clusterHeader first id nodeEnd len crc ++ d <+: K c
  | first, c :: c' :: t, d =>
    clusterRoom cfg.cs first < d.length ∧
    clusterHeader first id c' len crc ++ d.take (clusterRoom cfg.cs first) <+: K c ∧
    Written false (c' :: t) (d.drop (clusterRoom cfg.cs first))

/-- The pieces that are written to put the bytes `d` on the clusters. -/
def chainPuts : Bool → List Nat → List UInt8 → List (Nat × List UInt8)
  | _, [], _ => []
  | first, [c], d => [(c, clusterHeader first id nodeEnd len crc ++ d)]
  | first, c :: c' :: t, d =>
    (c, clusterHeader first id c' len crc ++ d.take (clusterRoom cfg.cs first)) ::
      chainPuts false (c' :: t) (d.drop (clusterRoom cfg.cs first))

/-- `k` clusters are what `n` bytes need. -/
def Fills (cs : Nat) : Bool → Nat → Nat → Prop
  | _, 0, _ => False
  | first, 1, n => n ≤ clusterRoom cs first
  | first, k + 2, n => clusterRoom cs first < n ∧ Fills cs false (k + 1) (n - clusterRoom cs first)

/-- The pieces that are written to delete the clusters. -/
def wipes (l : List Nat) : List (Nat × List UInt8) := l.map fun c => (c, dirtied (K c))

/-- Where the chain goes on. -/
def nextClu (t : List Nat) : Nat := t.headD nodeEnd

end

section

variable {cfg : Config} {K K' : Clusters} {id len crc c n k : Nat} {first : Bool} {l t : List Nat} {d buf : List UInt8}

theorem length_clusterHeader {next : Nat} :
    (clusterHeader first id next len crc).length = if first then 8 else 2 := by
  cases first with
  | true => exact Node.length_bytes _
  | false => exact length_dataHeader

theorem header_room (cfg : Config) (first : Bool) : (if first then 8 else 2) + clusterRoom cfg.cs first = cfg.cs := by
  have hcs := cfg.cs_bounds
  unfold clusterRoom
  cases first <;> simp <;> omega

theorem Fills.pos (h : Fills n first k len) : 0 < k := by
  cases k with
  | zero => exact h.elim
  | succ k => exact Nat.succ_pos k

theorem fills_false (hcs : 2 < n) (hlen : 0 < len) :
    Fills n false (len / (n - 2) + if len % (n - 2) ≠ 0 then 1 else 0) len := by
  induction len using Nat.strong_induction_on with
  | _ len ih =>
    have hroom : clusterRoom n false = n - 2 := rfl
    rcases Nat.lt_or_ge (n - 2) len with hlt | hle
    · have hrec := ih (len - (n - 2)) (by omega) (by omega)
      have hdiv : len / (n - 2) = (len - (n - 2)) / (n - 2) + 1 := Nat.div_eq_sub_div (by omega) (by omega)
      have hmod : len % (n - 2) = (len - (n - 2)) % (n - 2) := Nat.mod_eq_sub_mod (by omega)
      rw [hdiv, hmod]
      have hpos := hrec.pos
      generalize hk : (len - (n - 2)) / (n - 2) + (if (len - (n - 2)) % (n - 2) ≠ 0 then 1 else 0) = k at hrec hpos
      obtain ⟨k, rfl⟩ : ∃ j, k = j + 1 := ⟨k - 1, by omega⟩
      rw [show (len - (n - 2)) / (n - 2) + 1 + (if (len - (n - 2)) % (n - 2) ≠ 0 then 1 else 0) = k + 2 by omega]
      exact ⟨by rw [hroom]; omega, hrec⟩
    · have hone : len / (n - 2) + (if len % (n - 2) ≠ 0 then 1 else 0) = 1 := by
        rcases Nat.lt_or_eq_of_le hle with hlt | heq
        · rw [Nat.div_eq_of_lt hlt, Nat.mod_eq_of_lt hlt, if_pos (by omega)]
        · rw [heq, Nat.div_self (by omega), Nat.mod_self, if_neg (by simp)]
      rw [hone]
      exact hle

/-- `buf_len_to_n_clust` is the number of clusters that a value needs. -/
theorem fills_bufLenToNClust (hcs : 8 < n) : Fills n true (bufLenToNClust n len) len := by
  have hroom : clusterRoom n true = n - 8 := rfl
  unfold bufLenToNClust
  split
  · rename_i hle
    exact hle
  · rename_i hlt
    simp only []
    have hrest : Fills n false _ (len - (n - 8)) := fills_false (by omega) (by omega)
    have hpos := hrest.pos
    generalize (len - (n - 8)) / (n - 2) + (if (len - (n - 8)) % (n - 2) ≠ 0 then 1 else 0) = k at hrest hpos
    obtain ⟨k, rfl⟩ : ∃ j, k = j + 1 := ⟨k - 1, by omega⟩
    exact ⟨by rw [hroom]; omega, hrest⟩

theorem map_fst_chainPuts : (chainPuts cfg id len crc first l d).map Prod.fst = l := by
  induction l generalizing first d with
  | nil => rfl
  | cons c t ih =>
    cases t with
    | nil => rfl
    | cons c' t => simp [chainPuts, ih]

theorem map_fst_wipes : (wipes K l).map Prod.fst = l := by
  simp [wipes, Function.comp_def]

theorem wipes_congr (h : ∀ c ∈ l, K' c = K c) : wipes K' l = wipes K l :=
  List.map_congr_left fun c hc => by rw [h c hc]

theorem Written.congr (h : Written cfg K id len crc first l d) (hK : ∀ c ∈ l, K' c = K c) :
    Written cfg K' id len crc first l d := by
  induction l generalizing first d with
  | nil => exact h
  | cons c t ih =>
    have hc := hK c List.mem_cons_self
    cases t with
    | nil =>
      unfold Written at h ⊢
      rwa [hc]
    | cons c' t =>
      unfold Written at h ⊢
      rw [hc]
      exact ⟨h.1, h.2.1, ih h.2.2 fun c hmem => hK c (List.mem_cons_of_mem _ hmem)⟩

/-- Writing the pieces puts the bytes there. -/
theorem written_chainPuts (hfills : Fills cfg.cs first l.length d.length) (hnodup : l.Nodup) :
    Written cfg (putAll (chainPuts cfg id len crc first l d) K) id len crc first l d := by
  induction l generalizing first d K with
  | nil => exact hfills.elim
  | cons c t ih =>
    cases t with
    | nil =>
      refine ⟨hfills, ?_⟩
      show _ <+: put c _ K c
      rw [put_self]
      exact List.prefix_append _ _
    | cons c' t =>
      obtain ⟨hmem, hnodup⟩ := List.nodup_cons.mp hnodup
      obtain ⟨hroom, hrest⟩ := hfills
      have hlen : (d.drop (clusterRoom cfg.cs first)).length = d.length - clusterRoom cfg.cs first := List.length_drop
      refine ⟨hroom, ?_, ?_⟩
      · rw [chainPuts, putAll_cons, putAll_other (by rwa [map_fst_chainPuts]), put_self]
        exact List.prefix_append _ _
      · rw [chainPuts, putAll_cons]
        exact ih (by rw [hlen]; exact hrest) hnodup

theorem Written.cons (h : Written cfg K id len crc first (c :: t) d) :
    ∃ rest, K c = clusterHeader first id (nextClu t) len crc ++ d.take (clusterRoom cfg.cs first) ++ rest ∧
      (t = [] → d.length ≤ clusterRoom cfg.cs first) ∧
      (t ≠ [] → clusterRoom cfg.cs first < d.length ∧
        Written cfg K id len crc false t (d.drop (clusterRoom cfg.cs first))) := by
  cases t with
  | nil =>
    obtain ⟨hlen, rest, hrest⟩ := h
    refine ⟨rest, ?_, fun _ => hlen, fun h => absurd rfl h⟩
    rw [List.take_of_length_le hlen]
    exact hrest.symm
  | cons c' t =>
    obtain ⟨hlen, ⟨rest, hrest⟩, htail⟩ := h
    exact ⟨rest, hrest.symm, nofun, fun _ => ⟨hlen, htail⟩⟩

theorem nextClu_lt (hfew : n < nodeEnd) (h : ∀ c ∈ t, c < n) : nextClu t < 2 ^ 15 := by
  cases t with
  | nil => simp [nextClu, nodeEnd, nodeUnused]
  | cons c t =>
    have hc := h c List.mem_cons_self
    simp only [nextClu, List.headD_cons]
    unfold nodeEnd nodeUnused at hfew
    omega

/-- The header of the first cluster of a chain. -/
theorem Written.node_first (h : Written cfg K id len crc true (c :: t) d)
    (hfits : Node.Fits ⟨0, id, nextClu t, len, crc⟩) : Node.ofBytes (K c) = ⟨0, id, nextClu t, len, crc⟩ := by
  obtain ⟨rest, hK, _⟩ := h.cons
  rw [hK, List.append_assoc]
  exact Node.ofBytes_bytes hfits

/-- The header of the other clusters of a chain. -/
theorem Written.node_rest (h : Written cfg K id len crc false (c :: t) d) (hnext : nextClu t < 2 ^ 15) :
    (Node.ofBytes (K c)).type = 1 ∧ (Node.ofBytes (K c)).idNext = nextClu t := by
  obtain ⟨rest, hK, _⟩ := h.cons
  rw [hK, List.append_assoc]
  exact Node.ofBytes_dataHeader hnext

/-! ## free clusters -/

/-- The search takes the cluster. -/
def isFree (cfg : Config) (K : Clusters) (c : Nat) : Bool :=
  (Node.ofBytes (K c)).idNext = nodeUnused ∨ (cfg.wear = false ∧ (Node.ofBytes (K c)).idNext = nodeDirty)

/-- The free clusters from `s` on. -/
def frees (cfg : Config) (K : Clusters) (s : Nat) : List Nat :=
  (List.range' s (cfg.ncs - s)).filter (isFree cfg K)

theorem isFree_iff : isFree cfg K c = true ↔
    (Node.ofBytes (K c)).idNext = nodeUnused ∨ (cfg.wear = false ∧ (Node.ofBytes (K c)).idNext = nodeDirty) :=
  decide_eq_true_iff

/-- What `find_free_cluster` returns. -/
def firstFree (l : List Nat) : Int := l.head?.elim errFsFull fun c => (c : Int)

theorem firstFree_cons : firstFree (c :: t) = (c : Int) := rfl

theorem mem_frees {s : Nat} : c ∈ frees cfg K s ↔ s ≤ c ∧ c < cfg.ncs ∧ isFree cfg K c = true := by
  unfold frees
  rw [List.mem_filter, List.mem_range'_1]
  constructor
  · rintro ⟨⟨hle, hlt⟩, hfree⟩
    exact ⟨hle, by omega, hfree⟩
  · rintro ⟨hle, hlt, hfree⟩
    exact ⟨⟨hle, by omega⟩, hfree⟩

theorem frees_sorted {s : Nat} : (frees cfg K s).Pairwise (· < ·) := by
  have hrange : (List.range' s (cfg.ncs - s)).Pairwise (· < ·) := List.pairwise_lt_range'
  exact hrange.filter _

theorem frees_step {s : Nat} (h : s < cfg.ncs) :
    frees cfg K s = if isFree cfg K s then s :: frees cfg K (s + 1) else frees cfg K (s + 1) := by
  unfold frees
  obtain ⟨k, hk⟩ : ∃ k, cfg.ncs - s = k + 1 := ⟨cfg.ncs - s - 1, by omega⟩
  rw [hk, show cfg.ncs - (s + 1) = k by omega, List.range'_succ, List.filter_cons]

theorem frees_end {s : Nat} (h : cfg.ncs ≤ s) : frees cfg K s = [] := by
  unfold frees
  rw [Nat.sub_eq_zero_of_le h]
  rfl

/-- The list goes on behind its first cluster. -/
theorem frees_cons {s : Nat} (h : frees cfg K s = c :: t) : frees cfg K (c + 1) = t := by
  induction hk : cfg.ncs - s generalizing s with
  | zero =>
    rw [frees_end (by omega)] at h
    cases h
  | succ k ih =>
    rw [frees_step (by omega)] at h
    split at h
    · injection h with hc ht
      rwa [← hc]
    · exact ih h (by omega)

theorem frees_congr {s : Nat} (h : ∀ c, s ≤ c → c < cfg.ncs → isFree cfg K' c = isFree cfg K c) :
    frees cfg K' s = frees cfg K s := by
  apply List.filter_congr
  intro c hc
  rw [List.mem_range'_1] at hc
  exact h c hc.1 (by omega)

/-- Searching from a later cluster finds no more. -/
theorem frees_suffix {s s' : Nat} (h : s ≤ s') : frees cfg K s' <:+ frees cfg K s := by
  induction s', h using Nat.le_induction with
  | base => exact List.suffix_refl _
  | succ m hm ih =>
    refine List.IsSuffix.trans ?_ ih
    rcases Nat.lt_or_ge m cfg.ncs with hlt | hge
    · rw [frees_step hlt]
      split
      · exact List.suffix_cons _ _
      · exact List.suffix_refl _
    · rw [frees_end hge, frees_end (by omega)]

end

end Isix.FsEnv
