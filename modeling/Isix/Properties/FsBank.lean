import Isix.FsEnv

/-!
# Isix.Properties.FsBank

A bank of the environment store as clusters.  The pages of a bank are one line of
cells and its clusters are pieces of this line, so `flash_read` and `flash_write`
read and overwrite a cluster whether pages or clusters are the larger ones.

`On f o K r o' ps` says that a program over the clusters `K` of a bank returns `r`
and writes the pieces `ps`, in this order and between any number of reads.  The
rules for it are those of `Does`; a cut of the accesses is a cut of the pieces,
if each of them fits into a page.
-/

namespace Isix.FsEnv

open Flash Memory
open Ring (slice)

/-! ## the geometry -/

/-- The size of a cluster. -/
abbrev Config.cs (cfg : Config) : Nat := cfg.initialClustSize

/-- The number of clusters of a bank, with the one of the header. -/
abbrev Config.ncs (cfg : Config) : Nat := cfg.clusters cfg.cs

/-- The store has a chip that it can work on. -/
structure Config.Ok (cfg : Config) : Prop where
  /-- The header fits into a page. -/
  pageSize : 8 ≤ cfg.chip.pageSize
  aligned : cfg.chip.pageSize ∣ cfg.cs ∨ cfg.cs ∣ cfg.chip.pageSize
  pages : cfg.nPg ≤ cfg.chip.numPages
  two : 2 ≤ cfg.ncs
  few : cfg.ncs < nodeEnd

/-- The pages from `pg` on are a bank. -/
def Config.Bank (cfg : Config) (pg : Nat) : Prop := pg = cfg.pgBase ∨ pg = cfg.pgAlt

section

variable {cfg : Config} {pg c x n : Nat}

theorem Config.cs_eq (cfg : Config) : cfg.cs = 32 ∨ cfg.cs = 64 := by
  unfold Config.cs Config.initialClustSize
  split
  · exact .inr rfl
  · exact .inl rfl

theorem Config.cs_bounds (cfg : Config) : 8 < cfg.cs ∧ cfg.cs ≤ 64 := by
  rcases cfg.cs_eq with h | h <;> omega

theorem Config.Ok.npages_pos (hc : cfg.Ok) : 0 < cfg.npages := by
  apply Nat.pos_of_ne_zero
  intro h
  have htwo := hc.two
  simp [Config.ncs, Config.clusters, h] at htwo

theorem Config.Ok.random_iff (hc : cfg.Ok) : cfg.canRandomAccess = cfg.chip.overwrites := by
  have hpos := hc.npages_pos
  unfold Config.canRandomAccess Config.pgAlt
  cases cfg.chip.overwrites with
  | true => simp
  | false =>
    simp only [Bool.false_eq_true, if_false, decide_eq_false_iff_not]
    omega

theorem Config.Bank.le (h : cfg.Bank pg) (hc : cfg.Ok) : pg + cfg.npages ≤ cfg.chip.numPages := by
  have hpages := hc.pages
  rcases h with rfl | rfl <;> unfold Config.pgBase Config.npages at * <;>
    (try unfold Config.pgAlt) <;> (try unfold Config.pgBase Config.npages) <;>
    cases cfg.chip.overwrites <;> by_cases h0 : cfg.nPg = 0 <;> simp [h0] <;> omega

/-- A cluster ends inside of the bank. -/
theorem Config.ncs_mul (h : c < cfg.ncs) : c * cfg.cs + cfg.cs ≤ cfg.npages * cfg.chip.pageSize := by
  have hle := Nat.mul_le_mul_right cfg.cs (show c + 1 ≤ cfg.ncs from h)
  rw [Nat.succ_mul] at hle
  exact hle.trans (Nat.div_mul_le_self _ _)

theorem Config.Ok.page_lt (hc : cfg.Ok) (h : c < cfg.ncs) (hx : x < c * cfg.cs + cfg.cs) :
    x / cfg.chip.pageSize < cfg.npages := by
  have hps := hc.pageSize
  exact (Nat.div_lt_iff_lt_mul (by omega)).mpr (hx.trans_le (Config.ncs_mul h))

/-- Where a page has several clusters, a cluster does not cross the end of it. -/
theorem Config.Ok.inside (hc : cfg.Ok) (h : cfg.cs ∣ cfg.chip.pageSize) :
    c * cfg.cs % cfg.chip.pageSize + cfg.cs ≤ cfg.chip.pageSize := by
  obtain ⟨q, hq⟩ := h
  have hps := hc.pageSize
  have hpos : 0 < q := Nat.pos_of_ne_zero fun h0 => by simp [h0] at hq; omega
  rw [hq, Nat.mul_comm c, Nat.mul_mod_mul_left]
  have hmod := Nat.mod_lt c hpos
  have hle := Nat.mul_le_mul_left cfg.cs (show c % q + 1 ≤ q from hmod)
  rw [Nat.mul_add, Nat.mul_one] at hle
  exact hle

theorem Config.Ok.pagesOf_single (hc : cfg.Ok) (h : cfg.cs ∣ cfg.chip.pageSize) : cfg.pagesOf cfg.cs = 1 := by
  have hps := hc.pageSize
  have hle := Nat.le_of_dvd (by omega) h
  have hcs := cfg.cs_bounds
  unfold Config.pagesOf
  rcases Nat.lt_or_eq_of_le hle with hlt | heq
  · rw [Nat.div_eq_of_lt hlt, Nat.mod_eq_of_lt hlt, if_pos (by omega)]
  · rw [← heq, Nat.div_self (by omega), Nat.mod_self, if_neg (by simp)]

theorem Config.pagesOf_aligned (h : cfg.chip.pageSize ∣ cfg.cs) :
    cfg.pagesOf cfg.cs * cfg.chip.pageSize = cfg.cs := by
  unfold Config.pagesOf
  rw [Nat.mod_eq_zero_of_dvd h, if_neg (by simp), Nat.add_zero, Nat.div_mul_cancel h]

end

/-! ## clusters -/

/-- The bytes of each cluster. -/
abbrev Clusters := Nat → List UInt8

/-- The clusters of the bank at `pg`. -/
def Config.view (cfg : Config) (pg : Nat) (cells : Cells) : Clusters := fun c =>
  slice (c * cfg.cs) cfg.cs (cfg.chip.line pg cells)

/-- `buf` is written over the front of `old`. -/
def overwrite (buf old : List UInt8) : List UInt8 := buf ++ old.drop buf.length

def put (c : Nat) (buf : List UInt8) (K : Clusters) : Clusters := Function.update K c (overwrite buf (K c))

def putAll (ps : List (Nat × List UInt8)) (K : Clusters) : Clusters := ps.foldl (fun K p => put p.1 p.2 K) K

/-- Cells with the bytes `old` take the bytes `buf` when they are programmed. -/
def Takes (chip : Chip) (old buf : List UInt8) : Prop :=
  ∀ (i : Nat) (a b : UInt8), old[i]? = some a → buf[i]? = some b → chip.put a b = b

section

variable {cfg : Config} {cells : Cells} {K : Clusters} {pg c c' n x : Nat} {buf old : List UInt8}
  {ps ps' : List (Nat × List UInt8)} {o : Env}

theorem length_view : (cfg.view pg cells c).length = cfg.cs := by simp [Config.view, slice]

theorem length_overwrite (h : buf.length ≤ old.length) : (overwrite buf old).length = old.length := by
  simp [overwrite]
  omega

theorem put_self : put c buf K c = overwrite buf (K c) := Function.update_self _ _ _

theorem put_other (h : c' ≠ c) : put c buf K c' = K c' := Function.update_of_ne h _ _

theorem putAll_append : putAll (ps ++ ps') K = putAll ps' (putAll ps K) := List.foldl_append

theorem putAll_cons {p : Nat × List UInt8} : putAll (p :: ps) K = putAll ps (put p.1 p.2 K) := rfl

/-- Clusters that are not written stay. -/
theorem putAll_other (h : c ∉ ps.map Prod.fst) : putAll ps K c = K c := by
  induction ps generalizing K with
  | nil => rfl
  | cons p ps ih =>
    rw [List.map_cons, List.mem_cons, not_or] at h
    rw [putAll_cons, ih h.2, put_other h.1]

/-- A cluster depends on what it had and on what is written to it. -/
theorem putAll_congr_at {K' : Clusters} (h : K' c = K c) : putAll ps K' c = putAll ps K c := by
  induction ps generalizing K K' with
  | nil => exact h
  | cons p ps ih =>
    rw [putAll_cons, putAll_cons]
    apply ih
    by_cases hp : c = p.1
    · rw [hp, put_self, put_self, ← hp, h]
    · rw [put_other hp, put_other hp, h]

/-- Each cluster of a list is written once. -/
theorem putAll_map {g : Nat → List UInt8} {l : List Nat} (hnodup : l.Nodup) (hmem : c ∈ l) :
    putAll (l.map fun x => (x, g x)) K c = overwrite (g c) (K c) := by
  induction l generalizing K with
  | nil => cases hmem
  | cons a t ih =>
    obtain ⟨ha, hnodup⟩ := List.nodup_cons.mp hnodup
    rw [List.map_cons, putAll_cons]
    rcases List.mem_cons.mp hmem with rfl | hmem
    · rw [putAll_other (by simpa [Function.comp_def] using ha), put_self]
    · have hne : c ≠ a := fun he => ha (he ▸ hmem)
      rw [ih hnodup hmem, put_other hne]

theorem takes_overwrites {chip : Chip} (h : chip.overwrites = true) : Takes chip old buf := fun i a b _ _ => by
  unfold Chip.put
  rw [if_pos h]

theorem takes_erased {chip : Chip} : Takes chip (List.replicate n 0xFF) buf := fun i a b ha _ => by
  have ha := List.eq_of_mem_replicate (List.mem_of_getElem? ha)
  unfold Chip.put
  split
  · rfl
  · rw [ha]
    exact UInt8.neg_one_and

theorem take_slice {mem : Nat → UInt8} {a b : Nat} (h : a ≤ b) : (slice x b mem).take a = slice x a mem := by
  unfold slice
  rw [← List.map_take, List.take_range, Nat.min_eq_left h]

/-- Programming bytes that the cells take overwrites the cluster, and no other one. -/
theorem view_blend {line line' : Nat → UInt8} (hline : line' = cfg.chip.blend (c * cfg.cs) buf line)
    (hlen : buf.length ≤ cfg.cs) (htakes : Takes cfg.chip (slice (c * cfg.cs) cfg.cs line) buf) :
    slice (c' * cfg.cs) cfg.cs line' = if c' = c then overwrite buf (slice (c * cfg.cs) cfg.cs line)
      else slice (c' * cfg.cs) cfg.cs line := by
  subst hline
  split
  · rename_i heq
    subst heq
    apply List.ext_getElem?
    intro i
    unfold overwrite
    by_cases hi : i < cfg.cs
    · by_cases hb : i < buf.length
      · have hold : (slice (c' * cfg.cs) cfg.cs line)[i]? = some (line (c' * cfg.cs + i)) := by simp [slice, hi]
        have hput := htakes i _ _ hold (List.getElem?_eq_getElem hb)
        rw [List.getElem?_append_left hb, List.getElem?_eq_getElem hb]
        simp only [slice, List.getElem?_map, List.getElem?_range hi, Option.map_some, Chip.blend]
        rw [if_pos (by omega), Nat.add_sub_cancel_left, List.getElem?_eq_getElem hb, Option.elim_some, hput]
      · rw [List.getElem?_append_right (by omega), List.getElem?_drop, show buf.length + (i - buf.length) = i by omega]
        simp only [slice, List.getElem?_map, List.getElem?_range hi, Option.map_some]
        rw [blend_outside (by omega)]
    · rw [List.getElem?_eq_none (by simp [slice]; omega), List.getElem?_eq_none (by simp [slice]; omega)]
  · rename_i hne
    apply slice_congr
    intro i hi
    apply blend_outside
    rcases Nat.lt_or_gt_of_ne hne with hlt | hgt
    · left
      have hmul := Nat.mul_le_mul_right cfg.cs (show c' + 1 ≤ c from hlt)
      rw [Nat.succ_mul] at hmul
      omega
    · right
      have hmul := Nat.mul_le_mul_right cfg.cs (show c + 1 ≤ c' from hgt)
      rw [Nat.succ_mul] at hmul
      omega

/-! ## reading a cluster -/

theorem peeks_flashReadLoop_aligned (hc : cfg.Ok) (hpg : cfg.Bank pg) (hclu : c < cfg.ncs)
    (h : cfg.chip.pageSize ∣ cfg.cs) (k j : Nat) (got : List UInt8) (hk : j + k ≤ cfg.pagesOf cfg.cs)
    (hn : n ≤ k * cfg.chip.pageSize) (hgot : 0 < got.length + n) :
    Peeks cfg.chip (flashReadLoop cfg pg c cfg.cs k j n got) o cells
      (.ok (got ++ slice (c * cfg.cs + j * cfg.chip.pageSize) n (cfg.chip.line pg cells))) := by
  have hps := hc.pageSize
  have hfull := Config.pagesOf_aligned h
  induction k generalizing j n got with
  | zero =>
    obtain rfl : n = 0 := by omega
    unfold flashReadLoop
    rw [if_neg (List.length_pos_iff.mp (by omega))]
    simp only [slice, List.range_zero, List.map_nil, List.append_nil]
    exact .pure _
  | succ k ih =>
    unfold flashReadLoop
    simp only []
    split
    · rename_i h0
      obtain rfl : n = 0 := by omega
      rw [if_neg (List.length_pos_iff.mp (by omega))]
      simp only [slice, List.range_zero, List.map_nil, List.append_nil]
      exact .pure _
    · rename_i h0
      have hsmall : (j + 1) * cfg.chip.pageSize ≤ cfg.cs := by
        rw [← hfull]
        exact Nat.mul_le_mul_right _ (by omega)
      rw [Nat.succ_mul] at hsmall hn
      have hmod : c * cfg.cs % cfg.chip.pageSize = 0 := Nat.mod_eq_zero_of_dvd (Dvd.dvd.mul_left h c)
      have hxmod : (c * cfg.cs + j * cfg.chip.pageSize) % cfg.chip.pageSize = 0 := by
        rw [Nat.add_mul_mod_self_right, hmod]
      have hxdiv : (c * cfg.cs + j * cfg.chip.pageSize) / cfg.chip.pageSize =
          c * cfg.cs / cfg.chip.pageSize + j := Nat.add_mul_div_right _ _ (by omega)
      have hlt := hc.page_lt hclu (show c * cfg.cs + j * cfg.chip.pageSize < c * cfg.cs + cfg.cs by omega)
      have hle := hpg.le hc
      rw [hxdiv] at hlt
      refine (peeks_read (by omega) (by omega)).bind ?_
      have hslice : slice 0 (min n cfg.chip.pageSize) (cells (pg + c * cfg.cs / cfg.chip.pageSize + j)) =
          slice (c * cfg.cs + j * cfg.chip.pageSize) (min n cfg.chip.pageSize) (cfg.chip.line pg cells) := by
        rw [← slice_line (by omega), hxmod, hxdiv, Nat.add_assoc]
      rw [hmod, hslice]
      have hrest := ih (j + 1)
        (got ++ slice (c * cfg.cs + j * cfg.chip.pageSize) (min n cfg.chip.pageSize) (cfg.chip.line pg cells))
        (by omega) (show n - min n cfg.chip.pageSize ≤ k * cfg.chip.pageSize by omega)
        (by simp only [List.length_append, slice, List.length_map, List.length_range]; omega)
      have hsplit : slice (c * cfg.cs + j * cfg.chip.pageSize) n (cfg.chip.line pg cells) =
          slice (c * cfg.cs + j * cfg.chip.pageSize) (min n cfg.chip.pageSize) (cfg.chip.line pg cells) ++
          slice (c * cfg.cs + (j + 1) * cfg.chip.pageSize) (n - min n cfg.chip.pageSize) (cfg.chip.line pg cells) := by
        rcases Nat.le_total n cfg.chip.pageSize with hle' | hle'
        · simp [Nat.min_eq_left hle', slice]
        · rw [Nat.min_eq_right hle', Nat.succ_mul, ← Nat.add_assoc, ← Ring.slice_add]
          congr 1
          omega
      rw [hsplit, ← List.append_assoc]
      exact hrest

/-- Reading the front of a cluster. -/
theorem peeks_flashRead (hc : cfg.Ok) (hpg : cfg.Bank pg) (hclu : c < cfg.ncs) (hn : 0 < n) (hle : n ≤ cfg.cs) :
    Peeks cfg.chip (flashRead cfg pg c cfg.cs n) o cells (.ok ((cfg.view pg cells c).take n)) := by
  unfold flashRead Config.view
  rw [if_neg (by show ¬ cfg.ncs < c; omega), take_slice hle]
  rcases hc.aligned with h | h
  · have hfull := Config.pagesOf_aligned h
    have hread : Peeks cfg.chip (flashReadLoop cfg pg c cfg.cs (cfg.pagesOf cfg.cs) 0 n []) o cells
        (.ok ([] ++ slice (c * cfg.cs + 0 * cfg.chip.pageSize) n (cfg.chip.line pg cells))) :=
      peeks_flashReadLoop_aligned hc hpg hclu h _ 0 [] (by omega) (by omega) (by simpa using hn)
    simpa using hread
  · have hin := hc.inside (c := c) h
    have hps := hc.pageSize
    rw [hc.pagesOf_single h]
    unfold flashReadLoop
    simp only []
    rw [if_neg (by omega), Nat.min_eq_left (by omega), Nat.add_zero]
    have hlt := hc.page_lt hclu (show c * cfg.cs < c * cfg.cs + cfg.cs by omega)
    have hle := hpg.le hc
    refine (peeks_read (by omega) (by omega)).bind ?_
    rw [slice_line (by omega)]
    unfold flashReadLoop
    simp only [List.nil_append]
    rw [if_neg (List.length_pos_iff.mp (by simpa [slice] using hn))]
    exact .pure _

/-! ## writing a cluster -/

/-- The accesses of `flash_write`. -/
def writeOps (cfg : Config) (pg c : Nat) : Nat → Nat → List UInt8 → List Op
  | 0, _, _ => []
  | k + 1, j, buf =>
    if buf = [] then []
    else .program (pg + c * cfg.cs / cfg.chip.pageSize + j) (c * cfg.cs % cfg.chip.pageSize)
      (buf.take cfg.chip.pageSize) :: writeOps cfg pg c k (j + 1) (buf.drop cfg.chip.pageSize)

/-- The accesses of `flash_write` to a cluster. -/
def Config.writeOps (cfg : Config) (pg c : Nat) (buf : List UInt8) : List Op :=
  FsEnv.writeOps cfg pg c (cfg.pagesOf cfg.cs) 0 buf

section

variable (hc : cfg.Ok)

include hc

theorem does_flashWriteLoop (k j : Nat) (ret : Except Int Unit) :
    Does cfg.chip (flashWriteLoop cfg pg c cfg.cs k j buf ret) o cells (if k = 0 ∨ buf = [] then ret else .ok ()) o
      (writeOps cfg pg c k j buf) := by
  have hps := hc.pageSize
  induction k generalizing j buf ret cells with
  | zero => exact .pure _
  | succ k ih =>
    unfold flashWriteLoop writeOps
    simp only []
    by_cases hb : buf = []
    · rw [if_pos (by simp [hb]), if_pos (.inr hb), if_pos hb]
      exact .pure _
    · have hlen := List.length_pos_iff.mpr hb
      rw [if_neg (by omega), if_neg (by simp [hb]), if_neg hb]
      have htake : buf.take (min buf.length cfg.chip.pageSize) = buf.take cfg.chip.pageSize := by
        rw [Nat.min_comm, ← List.take_eq_take_min]
      have hdrop : buf.drop (min buf.length cfg.chip.pageSize) = buf.drop cfg.chip.pageSize := by
        rcases Nat.le_total buf.length cfg.chip.pageSize with hle | hle
        · rw [Nat.min_eq_left hle, List.drop_length, List.drop_eq_nil_of_le hle]
        · rw [Nat.min_eq_right hle]
      rw [htake, hdrop]
      have hrest : ∀ cells, Does cfg.chip (flashWriteLoop cfg pg c cfg.cs k (j + 1) (buf.drop cfg.chip.pageSize)
          (.ok ())) o cells (.ok ()) o (writeOps cfg pg c k (j + 1) (buf.drop cfg.chip.pageSize)) := by
        intro cells
        have hall : Does cfg.chip (flashWriteLoop cfg pg c cfg.cs k (j + 1) (buf.drop cfg.chip.pageSize) (.ok ())) o cells
            _ o _ := ih (j + 1) (.ok ())
        rwa [ite_self] at hall
      exact does_write.bind (hrest _)

theorem pagesOf_pos : 0 < cfg.pagesOf cfg.cs := by
  have hcs := cfg.cs_bounds
  rcases hc.aligned with h | h
  · apply Nat.pos_of_ne_zero
    intro h0
    have hfull := Config.pagesOf_aligned h
    rw [h0] at hfull
    omega
  · rw [hc.pagesOf_single h]
    exact Nat.one_pos

theorem does_flashWrite (hclu : c < cfg.ncs) (hbuf : buf ≠ []) :
    Does cfg.chip (flashWrite cfg pg c cfg.cs buf) o cells (.ok ()) o (cfg.writeOps pg c buf) := by
  unfold flashWrite
  rw [if_neg (by show ¬ cfg.ncs < c; omega)]
  have hpos := pagesOf_pos hc
  have hdoes : Does cfg.chip (flashWriteLoop cfg pg c cfg.cs (cfg.pagesOf cfg.cs) 0 buf (.error errInternal)) o cells
      (if cfg.pagesOf cfg.cs = 0 ∨ buf = [] then .error errInternal else .ok ()) o (cfg.writeOps pg c buf) :=
    does_flashWriteLoop hc _ _ _
  rwa [if_neg (by simp only [hbuf, or_false]; omega)] at hdoes

/-- A piece that fits into a page is one access. -/
theorem writeOps_single (hbuf : buf ≠ []) (hlen : buf.length ≤ cfg.chip.pageSize) :
    cfg.writeOps pg c buf =
      [.program (pg + c * cfg.cs / cfg.chip.pageSize) (c * cfg.cs % cfg.chip.pageSize) buf] := by
  have hpos := pagesOf_pos hc
  obtain ⟨k, hk⟩ : ∃ k, cfg.pagesOf cfg.cs = k + 1 := ⟨_, (Nat.succ_pred_eq_of_pos hpos).symm⟩
  unfold Config.writeOps
  rw [hk, writeOps, if_neg hbuf, List.take_of_length_le hlen, List.drop_eq_nil_of_le hlen]
  cases k with
  | zero => rfl
  | succ k => rw [writeOps, if_pos rfl, Nat.add_zero]

theorem line_writeOps_aligned (h : cfg.chip.pageSize ∣ cfg.cs) (k j : Nat)
    (hlen : buf.length ≤ k * cfg.chip.pageSize) :
    cfg.chip.line pg (cfg.chip.applyAll (writeOps cfg pg c k j buf) cells) =
      cfg.chip.blend (c * cfg.cs + j * cfg.chip.pageSize) buf (cfg.chip.line pg cells) := by
  have hps := hc.pageSize
  induction k generalizing j buf cells with
  | zero =>
    obtain rfl := List.length_eq_zero_iff.mp (show buf.length = 0 by omega)
    funext a
    rw [blend_outside (by simp; omega)]
    rfl
  | succ k ih =>
    unfold writeOps
    split
    · rename_i hb
      rw [hb]
      funext a
      rw [blend_outside (by simp; omega)]
      rfl
    · have hmod : c * cfg.cs % cfg.chip.pageSize = 0 := Nat.mod_eq_zero_of_dvd (Dvd.dvd.mul_left h c)
      have hxmod : (c * cfg.cs + j * cfg.chip.pageSize) % cfg.chip.pageSize = 0 := by
        rw [Nat.add_mul_mod_self_right, hmod]
      have hxdiv : (c * cfg.cs + j * cfg.chip.pageSize) / cfg.chip.pageSize =
          c * cfg.cs / cfg.chip.pageSize + j := Nat.add_mul_div_right _ _ (by omega)
      have hprog : cfg.chip.line pg (cfg.chip.apply (.program (pg + c * cfg.cs / cfg.chip.pageSize + j) 0
            (buf.take cfg.chip.pageSize)) cells) = cfg.chip.blend (c * cfg.cs + j * cfg.chip.pageSize)
            (buf.take cfg.chip.pageSize) (cfg.chip.line pg cells) := by
        rw [← line_program (by rw [hxmod]; simp), hxmod, hxdiv, Nat.add_assoc]
      rw [Nat.succ_mul] at hlen
      rw [applyAll_cons, hmod, ih (j + 1) (by simp only [List.length_drop]; omega), hprog]
      rcases Nat.le_total buf.length cfg.chip.pageSize with hle | hle
      · rw [List.drop_eq_nil_of_le hle, List.take_of_length_le hle]
        funext a
        rw [blend_outside (by simp; omega)]
      · have hfront : (buf.take cfg.chip.pageSize).length = cfg.chip.pageSize := by simp [hle]
        have happ : ∀ off, cfg.chip.blend (off + (buf.take cfg.chip.pageSize).length) (buf.drop cfg.chip.pageSize)
            (cfg.chip.blend off (buf.take cfg.chip.pageSize) (cfg.chip.line pg cells)) = _ :=
          fun off => blend_append
        rw [hfront, List.take_append_drop] at happ
        rw [Nat.succ_mul, ← Nat.add_assoc, happ]

theorem line_writeOps (hlen : buf.length ≤ cfg.cs) :
    cfg.chip.line pg (cfg.chip.applyAll (cfg.writeOps pg c buf) cells) =
      cfg.chip.blend (c * cfg.cs) buf (cfg.chip.line pg cells) := by
  rcases hc.aligned with h | h
  · have hline : _ = cfg.chip.blend (c * cfg.cs + 0 * cfg.chip.pageSize) buf (cfg.chip.line pg cells) :=
      line_writeOps_aligned hc h (cfg.pagesOf cfg.cs) 0 (by rwa [Config.pagesOf_aligned h])
    rwa [Nat.zero_mul, Nat.add_zero] at hline
  · by_cases hb : buf = []
    · have hops : cfg.writeOps pg c buf = [] := by
        unfold Config.writeOps
        rw [hc.pagesOf_single h, writeOps, if_pos hb]
      rw [hops, hb]
      funext a
      rw [blend_outside (by simp; omega)]
      rfl
    · have hin := hc.inside (c := c) h
      rw [writeOps_single hc hb (by omega), applyAll_cons, applyAll_nil, line_program (by omega)]

/-- The accesses are programs inside of the pages of the bank. -/
theorem mem_writeOps (hclu : c < cfg.ncs) (hlen : buf.length ≤ cfg.cs) {op : Op}
    (hop : op ∈ cfg.writeOps pg c buf) :
    ∃ q off bs, op = .program (pg + q) off bs ∧ q < cfg.npages ∧ off + bs.length ≤ cfg.chip.pageSize := by
  have hps := hc.pageSize
  rcases hc.aligned with h | h
  · have hmod : c * cfg.cs % cfg.chip.pageSize = 0 := Nat.mod_eq_zero_of_dvd (Dvd.dvd.mul_left h c)
    have hfull := Config.pagesOf_aligned h
    have hall : ∀ k j (buf : List UInt8), j + k ≤ cfg.pagesOf cfg.cs → op ∈ writeOps cfg pg c k j buf →
        ∃ q off bs, op = .program (pg + q) off bs ∧ q < cfg.npages ∧ off + bs.length ≤ cfg.chip.pageSize := by
      intro k
      induction k with
      | zero =>
        intro j buf _ hop
        cases hop
      | succ k ih =>
        intro j buf hk hop
        unfold writeOps at hop
        split at hop
        · cases hop
        · rcases List.mem_cons.mp hop with rfl | hop
          · have hxdiv : (c * cfg.cs + j * cfg.chip.pageSize) / cfg.chip.pageSize =
                c * cfg.cs / cfg.chip.pageSize + j := Nat.add_mul_div_right _ _ (by omega)
            have hj : (j + 1) * cfg.chip.pageSize ≤ cfg.cs := by
              rw [← hfull]
              exact Nat.mul_le_mul_right _ (by omega)
            rw [Nat.succ_mul] at hj
            have hlt := hc.page_lt hclu (show c * cfg.cs + j * cfg.chip.pageSize < c * cfg.cs + cfg.cs by omega)
            refine ⟨_, _, _, by rw [Nat.add_assoc], by rwa [hxdiv] at hlt, ?_⟩
            simp [hmod]
          · exact ih (j + 1) _ (by omega) hop
    exact hall _ 0 buf (by omega) hop
  · by_cases hb : buf = []
    · unfold Config.writeOps at hop
      rw [hc.pagesOf_single h, writeOps, if_pos hb] at hop
      cases hop
    · have hin := hc.inside (c := c) h
      rw [writeOps_single hc hb (by omega)] at hop
      have hcs := cfg.cs_bounds
      exact ⟨_, _, _, List.mem_singleton.mp hop, hc.page_lt hclu (by omega), by omega⟩

end

end

/-! ## programs over the clusters of a bank -/

/-- The accesses `ops` are reads and, in this order, the pieces `ps` that are
written over the clusters `K`. -/
inductive Trace (cfg : Config) (pg : Nat) : Clusters → List Op → List (Nat × List UInt8) → Prop
  | nil {K : Clusters} : Trace cfg pg K [] []
  | read {K : Clusters} {op : Op} {ops : List Op} {ps : List (Nat × List UInt8)} (hread : op.isRead = true)
      (hin : op.Inside cfg.chip) (h : Trace cfg pg K ops ps) : Trace cfg pg K (op :: ops) ps
  | put {K : Clusters} {c : Nat} {buf : List UInt8} {ops : List Op} {ps : List (Nat × List UInt8)}
      (hclu : c < cfg.ncs) (hbuf : buf ≠ []) (hlen : buf.length ≤ cfg.cs) (htakes : Takes cfg.chip (K c) buf)
      (h : Trace cfg pg (put c buf K) ops ps) : Trace cfg pg K (cfg.writeOps pg c buf ++ ops) ((c, buf) :: ps)

/-- On a bank with the clusters `K` and without faults, the program returns `r`, leaves the
object `o'` and writes the pieces `ps`. -/
def On {α : Type} (cfg : Config) (pg : Nat) (f : M Env α) (o : Env) (K : Clusters) (r : α) (o' : Env)
    (ps : List (Nat × List UInt8)) : Prop :=
  ∀ cells, cfg.view pg cells = K → ∃ ops, Does cfg.chip f o cells r o' ops ∧ Trace cfg pg K ops ps

section

variable {cfg : Config} {cells : Cells} {K : Clusters} {pg c n : Nat} {buf : List UInt8} {ops ops' : List Op}
  {ps ps' : List (Nat × List UInt8)} {o o' o'' : Env} {α β : Type} {f : M Env α} {g : α → M Env β} {r : α} {s : β}

namespace Trace

theorem append (h : Trace cfg pg K ops ps) (h' : Trace cfg pg (putAll ps K) ops' ps') :
    Trace cfg pg K (ops ++ ops') (ps ++ ps') := by
  induction h with
  | nil => exact h'
  | read hread hin _ ih => exact .read hread hin (ih h')
  | put hclu hbuf hlen htakes _ ih =>
    rw [List.append_assoc]
    exact .put hclu hbuf hlen htakes (ih h')

theorem reads (h : ∀ op ∈ ops, op.isRead = true ∧ op.Inside cfg.chip) : Trace cfg pg K ops [] := by
  induction ops with
  | nil => exact .nil
  | cons op ops ih =>
    obtain ⟨hread, hin⟩ := h op List.mem_cons_self
    exact .read hread hin (ih fun op hop => h op (List.mem_cons_of_mem _ hop))

/-- What the bank has after the accesses. -/
theorem view (h : Trace cfg pg K ops ps) (hc : cfg.Ok) (hK : cfg.view pg cells = K) :
    cfg.view pg (cfg.chip.applyAll ops cells) = putAll ps K := by
  induction h generalizing cells with
  | nil => exact hK
  | @read K op ops ps hread hin _ ih =>
    have hsame : cfg.chip.apply op cells = cells := by
      cases op with
      | read => rfl
      | program => cases hread
      | erase => cases hread
    rw [applyAll_cons, hsame]
    exact ih hK
  | @put K c buf ops ps hclu hbuf hlen htakes _ ih =>
    rw [applyAll_append, putAll_cons]
    apply ih
    subst hK
    funext c'
    have hline : cfg.chip.line pg (cfg.chip.applyAll (cfg.writeOps pg c buf) cells) = _ := line_writeOps hc hlen
    have hview : cfg.view pg (cfg.chip.applyAll (cfg.writeOps pg c buf) cells) c' = _ := view_blend hline hlen htakes
    by_cases heq : c' = c
    · rw [heq, put_self]
      rw [heq, if_pos rfl] at hview
      exact hview
    · rw [put_other heq]
      rw [if_neg heq] at hview
      exact hview

theorem inside (h : Trace cfg pg K ops ps) (hc : cfg.Ok) (hpg : cfg.Bank pg) : ∀ op ∈ ops, op.Inside cfg.chip := by
  induction h with
  | nil => exact fun _ h => by cases h
  | read hread hin _ ih => exact List.forall_mem_cons.mpr ⟨hin, ih⟩
  | put hclu hbuf hlen htakes _ ih =>
    intro op hop
    rcases List.mem_append.mp hop with hop | hop
    · obtain ⟨q, off, bs, rfl, hq, hoff⟩ := mem_writeOps hc hclu hlen hop
      have hle := hpg.le hc
      exact ⟨by omega, hoff⟩
    · exact ih op hop

/-- Pages outside of the bank keep their cells. -/
theorem other (h : Trace cfg pg K ops ps) (hc : cfg.Ok) {q : Nat} (hq : q < pg ∨ pg + cfg.npages ≤ q) :
    cfg.chip.applyAll ops cells q = cells q := by
  apply applyAll_other
  induction h with
  | nil => exact fun _ h => by cases h
  | @read K op ops ps hread hin _ ih =>
    refine List.forall_mem_cons.mpr ⟨fun off bs => ⟨?_, ?_⟩, ih⟩
    · rintro rfl
      cases hread
    · rintro rfl
      cases hread
  | put hclu hbuf hlen htakes _ ih =>
    intro op hop off bs
    rcases List.mem_append.mp hop with hop | hop
    · obtain ⟨q', off', bs', rfl, hq', hoff⟩ := mem_writeOps hc hclu hlen hop
      refine ⟨fun he => ?_, fun he => by cases he⟩
      injection he with he
      omega
    · exact ih op hop off bs

theorem all_reads (h : Trace cfg pg K ops []) : ∀ op ∈ ops, op.isRead = true := by
  generalize hps : ([] : List (Nat × List UInt8)) = ps at h
  induction h with
  | nil => exact fun _ h => by cases h
  | read hread hin _ ih => exact List.forall_mem_cons.mpr ⟨hread, ih hps⟩
  | put => cases hps

end Trace

namespace On

theorem pure (r : α) : On cfg pg (Pure.pure r) o K r o [] := fun _ _ => ⟨[], .pure r, .nil⟩

theorem bind (hc : cfg.Ok) (hf : On cfg pg f o K r o' ps) (hg : On cfg pg (g r) o' (putAll ps K) s o'' ps') :
    On cfg pg (f >>= g) o K s o'' (ps ++ ps') := fun cells hK => by
  obtain ⟨ops, hdoes, htrace⟩ := hf cells hK
  obtain ⟨ops', hdoes', htrace'⟩ := hg _ (htrace.view hc hK)
  exact ⟨ops ++ ops', hdoes.bind hdoes', htrace.append htrace'⟩

theorem getObj {g : Env → M Env β} (hg : On cfg pg (g o) o K s o' ps) :
    On cfg pg (Flash.getObj >>= g) o K s o' ps := fun cells hK => by
  obtain ⟨ops, hdoes, htrace⟩ := hg cells hK
  exact ⟨ops, hdoes.getObj, htrace⟩

theorem setObj {g : Unit → M Env β} (hg : On cfg pg (g ()) o' K s o'' ps) :
    On cfg pg (Flash.setObj o' >>= g) o K s o'' ps := fun cells hK => by
  obtain ⟨ops, hdoes, htrace⟩ := hg cells hK
  exact ⟨ops, does_setObj.bind hdoes, htrace⟩

theorem ifPos {p : Prop} [Decidable p] {f' : M Env α} (h : p) (hf : On cfg pg f o K r o' ps) :
    On cfg pg (if p then f else f') o K r o' ps := by rwa [if_pos h]

theorem ifNeg {p : Prop} [Decidable p] {f' : M Env α} (h : ¬ p) (hf : On cfg pg f o K r o' ps) :
    On cfg pg (if p then f' else f) o K r o' ps := by rwa [if_neg h]

/-- A program that only reads comes first. -/
theorem peek (hc : cfg.Ok) (hf : On cfg pg f o K r o' []) (hg : On cfg pg (g r) o' K s o'' ps) :
    On cfg pg (f >>= g) o K s o'' ps := hf.bind hc hg

end On

theorem on_setObj : On cfg pg (Flash.setObj o') o K () o' [] := fun _ _ => ⟨[], does_setObj, .nil⟩

theorem on_flashRead (hc : cfg.Ok) (hpg : cfg.Bank pg) (hclu : c < cfg.ncs) (hn : 0 < n) (hle : n ≤ cfg.cs) :
    On cfg pg (flashRead cfg pg c cfg.cs n) o K (.ok ((K c).take n)) o [] := fun cells hK => by
  subst hK
  obtain ⟨ops, hdoes, hops⟩ := peeks_flashRead hc hpg hclu hn hle
  exact ⟨ops, hdoes, .reads hops⟩

theorem on_flashWrite (hc : cfg.Ok) (hclu : c < cfg.ncs) (hbuf : buf ≠ []) (hlen : buf.length ≤ cfg.cs)
    (htakes : Takes cfg.chip (K c) buf) :
    On cfg pg (flashWrite cfg pg c cfg.cs buf) o K (.ok ()) o [(c, buf)] := fun cells _ =>
  ⟨_, does_flashWrite hc hclu hbuf, by simpa using Trace.put hclu hbuf hlen htakes .nil⟩

end

end Isix.FsEnv
