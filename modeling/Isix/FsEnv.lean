import Isix.Lib.Flash
import Isix.Lib.Memory
import Isix.Lib.Runs

/-!
# Isix.FsEnv

`libfoundation/src/drv/storage/fs_env.cpp`: values with numbers as names, kept in
chains of clusters on an EEPROM or on two banks of flash.  The first cluster of a
chain has the name, the length and a checksum, each cluster has the number of the
next one; a cluster of a deleted chain is dirty until it is reclaimed.

A cluster number and an error code share the type `int`, as in the source.  Bit
fields and numbers on the medium are little-endian.  Sizes are those of a chip
below 4 GiB, so products of them do not wrap; cluster sizes are at least 8.  The
loop of `delete_chain` may run for ever on a damaged store, in which case the
calls return `none`.
-/

namespace Isix.FsEnv

open Flash Memory

/-! ## the medium -/

def errSuccess : Int := 0
def errInvalidId : Int := -8192
def errRangeId : Int := -8193
def errFsFull : Int := -8195
def errFsFmt : Int := -8196
def errInternal : Int := -8197
def errBufOvrflow : Int := -8198

def errHdrNotFound : Int := 3
def errHdrSecond : Int := 2
def errHdrFirst : Int := 1

def nodeUnused : Nat := 0x7FFF
def nodeDirty : Nat := 0
def nodeEnd : Nat := nodeUnused - 1

/-- `pg_hdr::id_valid` -/
def idValid : Nat := 0xFA197908

/-- `c_first_cluster` -/
def firstCluster : Nat := 1

/-- `c_lru_size` -/
def lruSize : Nat := 16

/-- `fnode_0`; the first halfword has `type` as its lowest bit and `id_next` above. -/
structure Node where
  type : Nat
  idNext : Nat
  next : Nat
  len : Nat
  crc : Nat
  deriving DecidableEq

def Node.bytes (n : Node) : List UInt8 :=
  toBytes 2 (n.type + 2 * n.idNext) ++ toBytes 2 n.next ++ toBytes 2 n.len ++ toBytes 2 n.crc

def Node.ofBytes (bs : List UInt8) : Node :=
  let w := Memory.ofBytes (bs.take 2)
  { type := w % 2, idNext := w / 2, next := Memory.ofBytes ((bs.drop 2).take 2)
    len := Memory.ofBytes ((bs.drop 4).take 2), crc := Memory.ofBytes ((bs.drop 6).take 2) }

/-- The first halfword of `fnode_1`. -/
def dataHeader (next : Nat) : List UInt8 := toBytes 2 (1 + 2 * next)

/-- `pg_hdr` -/
def pgHdr (clustLen : Nat) : List UInt8 := toBytes 4 idValid ++ toBytes 2 clustLen

/-! ## the checksum -/

def loTbl : List UInt8 :=
  [0x00, 0x10, 0x20, 0x30, 0x40, 0x50, 0x60, 0x70, 0x81, 0x91, 0xA1, 0xB1, 0xC1, 0xD1, 0xE1, 0xF1]

def hiTbl : List UInt8 :=
  [0x00, 0x21, 0x42, 0x63, 0x84, 0xA5, 0xC6, 0xE7, 0x08, 0x29, 0x4A, 0x6B, 0x8C, 0xAD, 0xCE, 0xEF]

/-- `crc16` -/
structure Crc where
  lo : UInt8
  hi : UInt8

def crcInit : Crc := ⟨0xFF, 0xFF⟩

def Crc.update4 (a : Crc) (value : UInt8) : Crc :=
  let t := (a.hi >>> 4) ^^^ value
  let hi := (a.hi <<< 4) ||| (a.lo >>> 4)
  let lo := a.lo <<< 4
  ⟨lo ^^^ (loTbl[t.toNat]?).getD 0, hi ^^^ (hiTbl[t.toNat]?).getD 0⟩

def Crc.byte (a : Crc) (val : UInt8) : Crc := (a.update4 (val >>> 4)).update4 (val &&& 0x0F)

def Crc.feed (a : Crc) (bs : List UInt8) : Crc := bs.foldl Crc.byte a

def Crc.value (a : Crc) : Nat := a.hi.toNat * 256 + a.lo.toNat

def crc16 (bs : List UInt8) : Nat := (crcInit.feed bs).value

/-! ## the object -/

/-- The arguments of the constructor. -/
structure Config where
  chip : Chip
  wearLeveling : Bool
  nPg : Nat

/-- The members that change.  `m_lru` is the list of its items, the last used one
first. -/
structure Env where
  clustSize : Nat
  altPageInUse : Bool
  lastFreeClust : Nat
  lru : List (Nat × Nat)
  deriving DecidableEq

/-- A new object. -/
def Env.new : Env := ⟨0, false, firstCluster, []⟩

def lruPut (key value : Nat) (lru : List (Nat × Nat)) : List (Nat × Nat) :=
  ((key, value) :: lru.filter (·.1 ≠ key)).take lruSize

/-- `lru_cache::get`: the value, and the items with the one used in front. -/
def lruGet (key : Nat) (lru : List (Nat × Nat)) : Option Nat × List (Nat × Nat) :=
  match lru.find? (·.1 = key) with
  | none => (none, lru)
  | some item => (some item.2, item :: lru.filter (·.1 ≠ key))

variable (cfg : Config)

/-- `m_npages` -/
def Config.npages : Nat :=
  let ret := if cfg.nPg = 0 then cfg.chip.numPages else cfg.nPg
  if cfg.chip.overwrites then ret else ret / 2

/-- `m_pg_base` -/
def Config.pgBase : Nat := if cfg.nPg = 0 then 0 else cfg.chip.numPages - cfg.nPg

/-- `m_pg_alt` -/
def Config.pgAlt : Nat := if cfg.chip.overwrites then cfg.pgBase else cfg.pgBase + cfg.npages

/-- `can_random_access` -/
def Config.canRandomAccess : Bool := cfg.pgBase = cfg.pgAlt

/-- `m_wear_leveling` -/
def Config.wear : Bool := cfg.wearLeveling || !cfg.canRandomAccess

/-- `get_initial_clust_size` -/
def Config.initialClustSize : Nat := if 8192 < cfg.npages * cfg.chip.pageSize then 64 else 32

/-- `get_page` -/
def Config.page (o : Env) : Nat := if o.altPageInUse then cfg.pgAlt else cfg.pgBase

/-- The number of clusters of the size `cs`. -/
def Config.clusters (cs : Nat) : Nat := cfg.npages * cfg.chip.pageSize / cs

/-- `get_first_cluster` -/
def Config.firstClust (o : Env) : Nat := if cfg.wear then o.lastFreeClust else firstCluster

/-! ## clusters -/

/-- The loop of `flash_read`, for the `k` pages from `n` on. -/
def flashReadLoop (fpg clust csize : Nat) : Nat → Nat → Nat → List UInt8 → M Env (Except Int (List UInt8))
  | 0, _, _, buf => pure (if buf = [] then .error errInternal else .ok buf)
  | k + 1, n, len, buf => do
    let rll := min len cfg.chip.pageSize
    if rll = 0 then pure (if buf = [] then .error errInternal else .ok buf)
    else
      match ← Flash.read cfg.chip (fpg + clust * csize / cfg.chip.pageSize + n)
          (clust * csize % cfg.chip.pageSize) rll with
      | .error e => pure (.error e)
      | .ok bs => flashReadLoop fpg clust csize k (n + 1) (len - rll) (buf ++ bs)

/-- `n_wr` -/
def Config.pagesOf (csize : Nat) : Nat :=
  csize / cfg.chip.pageSize + (if csize % cfg.chip.pageSize ≠ 0 then 1 else 0)

/-- `flash_read` -/
def flashRead (fpg clust csize len : Nat) : M Env (Except Int (List UInt8)) :=
  if cfg.clusters csize < clust then pure (.error errFsFmt)
  else flashReadLoop cfg fpg clust csize (cfg.pagesOf csize) 0 len []

/-- The loop of `flash_write`; `ret` is the result so far. -/
def flashWriteLoop (fpg clust csize : Nat) : Nat → Nat → List UInt8 → Except Int Unit → M Env (Except Int Unit)
  | 0, _, _, ret => pure ret
  | k + 1, n, buf, ret => do
    let wrl := min buf.length cfg.chip.pageSize
    if wrl = 0 then pure ret
    else
      match ← Flash.write cfg.chip (fpg + clust * csize / cfg.chip.pageSize + n)
          (clust * csize % cfg.chip.pageSize) (buf.take wrl) with
      | .error e => pure (.error e)
      | .ok () => flashWriteLoop fpg clust csize k (n + 1) (buf.drop wrl) (.ok ())

/-- `flash_write` -/
def flashWrite (fpg clust csize : Nat) (buf : List UInt8) : M Env (Except Int Unit) :=
  if cfg.clusters csize < clust then pure (.error errInternal)
  else flashWriteLoop cfg fpg clust csize (cfg.pagesOf csize) 0 buf (.error errInternal)

/-- `buf_len_to_n_clust` -/
def bufLenToNClust (cs bufLen : Nat) : Nat :=
  if bufLen ≤ cs - 8 then 1
  else
    let ret := bufLen - (cs - 8)
    ret / (cs - 2) + (if ret % (cs - 2) ≠ 0 then 1 else 0) + 1

/-! ## searches -/

/-- The loop of `find_free_cluster`, for the `k` clusters from `c` on. -/
def findFreeLoop (page cs : Nat) : Nat → Nat → M Env Int
  | 0, _ => pure errFsFull
  | k + 1, c => do
    match ← flashRead cfg page c cs 8 with
    | .error e => pure e
    | .ok bs =>
      let node := Node.ofBytes bs
      if node.idNext = nodeUnused ∨ (cfg.wear = false ∧ node.idNext = nodeDirty) then pure c
      else findFreeLoop page cs k (c + 1)

/-- `find_free_cluster` -/
def findFreeCluster (sclust : Nat) : M Env Int := do
  let o ← getObj
  findFreeLoop cfg (cfg.page o) o.clustSize (cfg.clusters o.clustSize - sclust) sclust

/-- The loop of `check_chains`: `k` rounds are left and `fnd` clusters found. -/
def checkLoop (rclu : Nat) : Nat → Nat → Nat → Int → M Env Int
  | 0, _, fnd, ret => pure (if 0 ≤ ret then fnd else ret)
  | k + 1, fc, fnd, _ => do
    let ret ← findFreeCluster cfg (fc + 1)
    if 0 < ret then
      if fnd + 1 = rclu then pure (fnd + 1 : Nat) else checkLoop rclu k ret.toNat (fnd + 1) ret
    else pure (if 0 ≤ ret then fnd else ret)

/-- `check_chains` -/
def checkChains (rclu : Nat) : M Env Int := do
  let o ← getObj
  checkLoop cfg rclu rclu (cfg.firstClust o) 0 errInternal

/-- The loop of `find_first`. -/
def findFirstLoop (page cs id : Nat) : Nat → Nat → M Env (Int × Node)
  | 0, _ => pure (errInvalidId, ⟨0, 0, 0, 0, 0⟩)
  | k + 1, c => do
    match ← flashRead cfg page c cs 8 with
    | .error e => pure (e, ⟨0, 0, 0, 0, 0⟩)
    | .ok bs =>
      let node := Node.ofBytes bs
      if node.type = 0 ∧ node.idNext = id then pure (c, node) else findFirstLoop page cs id k (c + 1)

/-- `find_first`, with the node found. -/
def findFirst (id : Nat) : M Env (Int × Node) := do
  let o ← getObj
  setObj { o with lru := (lruGet id o.lru).2 }
  let start := (lruGet id o.lru).1.getD firstCluster
  if cfg.clusters o.clustSize ≤ start then pure (errInternal, ⟨0, 0, 0, 0, 0⟩)
  else findFirstLoop cfg (cfg.page o) o.clustSize id (cfg.clusters o.clustSize - start) start

/-- `find_next_cluster` -/
def findNextCluster (cluster : Nat) : M Env Int := do
  let o ← getObj
  match ← flashRead cfg (cfg.page o) cluster o.clustSize 2 with
  | .error e => pure e
  | .ok bs =>
    let idNext := ofBytes bs / 2
    if idNext = nodeDirty ∨ idNext = nodeUnused then pure nodeEnd else pure idNext

/-! ## deletion -/

/-- The loop of `delete_chain`. -/
def deleteLoop (page cs : Nat) : Nat → Nat → Int → M Env (Option Int)
  | 0, cclu, ret => pure (if cclu = nodeEnd then some ret else none)
  | fuel + 1, cclu, ret =>
    if cclu = nodeEnd then pure (some ret)
    else do
      match ← flashRead cfg page cclu cs 8 with
      | .error e => pure (some e)
      | .ok bs =>
        let node := Node.ofBytes bs
        let next := if node.type = 0 then node.next else node.idNext
        match ← flashWrite cfg page cclu cs { node with next := nodeDirty, idNext := nodeDirty }.bytes with
        | .error e => pure (some e)
        | .ok () => deleteLoop page cs fuel next 0

/-- `delete_chain`; a walk that visits a cluster for the third time does not end. -/
def deleteChain (cclu : Nat) : M Env (Option Int) := do
  let o ← getObj
  deleteLoop cfg (cfg.page o) o.clustSize (2 * cfg.clusters o.clustSize + 3) cclu errInternal

/-! ## format and reclaim -/

/-- The loop of `erase_all_random`. -/
def eraseRandomLoop (pg cs : Nat) : Nat → Nat → Except Int Unit → M Env (Except Int Unit)
  | 0, _, ret => pure ret
  | k + 1, c, _ => do
    match ← flashWrite cfg pg c cs [0xFF, 0xFF, 0xFF, 0xFF] with
    | .error e => pure (.error e)
    | .ok () => eraseRandomLoop pg cs k (c + 1) (.ok ())

/-- The loop of `erase_all_nonrandom`. -/
def eraseNonrandomLoop (pg : Nat) : Nat → Nat → Except Int Unit → M Env (Except Int Unit)
  | 0, _, ret => pure ret
  | k + 1, p, _ => do
    match ← Flash.pageErase cfg.chip (pg + p) with
    | .error e => pure (.error e)
    | .ok () => eraseNonrandomLoop pg k (p + 1) (.ok ())

/-- `erase_all_nonrandom` -/
def eraseAllNonrandom (pg : Nat) : M Env (Except Int Unit) :=
  eraseNonrandomLoop cfg pg cfg.npages 0 (.error errInternal)

/-- `erase_all_pages` -/
def eraseAllPages (pg : Nat) : M Env (Except Int Unit) :=
  if cfg.canRandomAccess then
    eraseRandomLoop cfg pg cfg.initialClustSize (cfg.clusters cfg.initialClustSize) 0 (.error errInternal)
  else eraseAllNonrandom cfg pg

/-- `fs_env::format` -/
def format : M Env Int := do
  match ← eraseAllPages cfg cfg.pgBase with
  | .error e => pure e
  | .ok () =>
    match ← Flash.write cfg.chip cfg.pgBase 0 (pgHdr cfg.initialClustSize) with
    | .error e => pure e
    | .ok () =>
      if cfg.canRandomAccess then pure errSuccess
      else
        match ← eraseAllPages cfg cfg.pgAlt with
        | .error e => pure e
        | .ok () => pure errSuccess

/-- The loop of `reclaim_random`. -/
def reclaimRandomLoop (cs : Nat) : Nat → Nat → M Env Int
  | 0, _ => pure 0
  | k + 1, c => do
    match ← flashRead cfg cfg.pgBase c cs 8 with
    | .error e => pure e
    | .ok bs =>
      let node := Node.ofBytes bs
      if node.idNext = nodeDirty then
        match ← flashWrite cfg cfg.pgBase c cs { node with idNext := nodeUnused }.bytes with
        | .error e => pure e
        | .ok () => reclaimRandomLoop cs k (c + 1)
      else reclaimRandomLoop cs k (c + 1)

/-- `reclaim_random` -/
def reclaimRandom : M Env Int := do
  let o ← getObj
  if o.altPageInUse then pure errFsFmt
  else if o.clustSize = 0 then pure errInternal
  else reclaimRandomLoop cfg o.clustSize (cfg.clusters o.clustSize - 1) 1

/-- The loop of `reclaim_nonrandom`; an error ends it and is not looked at. -/
def copyLoop (paFrom paTo cs : Nat) : Nat → Nat → M Env Unit
  | 0, _ => pure ()
  | k + 1, c => do
    match ← flashRead cfg paFrom c cs cs with
    | .error _ => pure ()
    | .ok buf =>
      let node := Node.ofBytes buf
      if node.idNext ≠ nodeDirty ∧ node.idNext ≠ nodeUnused then
        match ← flashWrite cfg paTo c cs buf with
        | .error _ => pure ()
        | .ok () => copyLoop paFrom paTo cs k (c + 1)
      else copyLoop paFrom paTo cs k (c + 1)

/-- `reclaim_nonrandom` -/
def reclaimNonrandom : M Env Int := do
  let o ← getObj
  let paFrom := if o.altPageInUse then cfg.pgAlt else cfg.pgBase
  let paTo := if o.altPageInUse then cfg.pgBase else cfg.pgAlt
  copyLoop cfg paFrom paTo o.clustSize (cfg.clusters o.clustSize - 1) 1
  match ← eraseAllNonrandom cfg paFrom with
  | .error e => pure e
  | .ok () =>
    let ret ← Flash.write cfg.chip paTo 0 (pgHdr o.clustSize)
    let o ← getObj
    setObj { o with altPageInUse := !o.altPageInUse }
    match ret with
    | .error e => pure e
    | .ok () => pure 0

/-- `reclaim` -/
def reclaim : M Env Int := do
  let o ← getObj
  setObj { o with lru := [], lastFreeClust := firstCluster }
  if cfg.canRandomAccess then reclaimRandom cfg else reclaimNonrandom cfg

/-! ## mount -/

/-- `pg_hdr::ok`, and the cluster size. -/
def readHeader (pg : Nat) : M Env (Except Int (Option Nat)) := do
  match ← Flash.read cfg.chip pg 0 6 with
  | .error e => pure (.error e)
  | .ok bs => pure (.ok (if ofBytes (bs.take 4) = idValid then some (ofBytes (bs.drop 4)) else none))

/-- `find_valid_page`: the result and `clust_size`. -/
def findValidPage : M Env (Int × Nat) := do
  match ← readHeader cfg cfg.pgBase with
  | .error e => pure (e, 0)
  | .ok (some cs) => pure (errHdrFirst, cs)
  | .ok none =>
    if cfg.canRandomAccess then pure (errHdrNotFound, 0)
    else
      match ← readHeader cfg cfg.pgAlt with
      | .error e => pure (e, 0)
      | .ok (some cs) => pure (errHdrSecond, cs)
      | .ok none => pure (errHdrNotFound, 0)

/-- The end of `init_fs`. -/
def initDone (ret : Int) (csize : Nat) (alt : Bool) : M Env Int := do
  let o ← getObj
  setObj { o with altPageInUse := alt, clustSize := if ret = errSuccess then csize else o.clustSize }
  pure ret

/-- `init_fs` -/
def initFs : M Env Int := do
  let o ← getObj
  if o.clustSize ≠ 0 then pure errSuccess
  else do
    let (ret, csize) ← findValidPage cfg
    let o ← getObj
    setObj { o with lru := [], lastFreeClust := firstCluster }
    if ret = errHdrNotFound then do
      let ret ← format cfg
      initDone ret cfg.initialClustSize false
    else if ret = errHdrFirst then initDone errSuccess csize false
    else if ret = errHdrSecond then initDone errSuccess csize true
    else pure ret

/-! ## writing -/

/-- `m_last_free_clust = c`, if `b`. -/
def setLast (b : Bool) (c : Nat) : M Env Unit := do
  let o ← getObj
  setObj { o with lastFreeClust := if b then c else o.lastFreeClust }

/-- The header of a cluster: of the first one of a chain, or of one of the others. -/
def clusterHeader (first : Bool) (envId next len crc : Nat) : List UInt8 :=
  if first then Node.bytes ⟨0, envId, next, len, crc⟩ else dataHeader next

/-- The number of bytes of a value that fit into a cluster. -/
def clusterRoom (cs : Nat) (first : Bool) : Nat := cs - if first then 8 else 2

/-- The loop of `write_non_existing`, for the `k` clusters that are left; the first
one has the name.  It returns at once with `.error ret`, or ends with the last
result and `fc2`. -/
def writeLoop (envId len crc : Nat) : Nat → Bool → Nat → Int → List UInt8 → M Env (Except Int (Int × Int))
  | 0, _, _, fc2, _ => pure (.ok (errSuccess, fc2))
  | k + 1, first, fc1, fc2, buf => do
    let o ← getObj
    let room := clusterRoom o.clustSize first
    if buf.length ≤ room then
      match ← flashWrite cfg (cfg.page o) fc1 o.clustSize
          (clusterHeader first envId nodeEnd len crc ++ buf) with
      | .error e => pure (.ok (e, fc2))
      | .ok () => writeLoop envId len crc k false fc2.toNat fc2 []
    else do
      let fc2 ← findFreeCluster cfg (fc1 + 1)
      setLast first fc1
      if fc2 < 0 then pure (.error errSuccess)
      else
        match ← flashWrite cfg (cfg.page o) fc1 o.clustSize
            (clusterHeader first envId fc2.toNat len crc ++ buf.take room) with
        | .error e => pure (.ok (e, fc2))
        | .ok () => writeLoop envId len crc k false fc2.toNat fc2 (buf.drop room)

/-- `write_non_existing` behind the check for space: the result and `lru_cache_elem`. -/
def writeChain (envId : Nat) (buf : List UInt8) (nclu : Nat) : M Env (Int × Nat) := do
  let o ← getObj
  let fc1 ← findFreeCluster cfg (cfg.firstClust o)
  if fc1 < 0 then pure (errSuccess, 0)
  else
    match ← writeLoop cfg envId buf.length (crc16 buf) nclu true fc1.toNat nodeEnd buf with
    | .error ret => pure (ret, fc1.toNat)
    | .ok (ret, fc2) => do
      setLast (fc2 ≠ nodeEnd) fc2.toNat
      pure (ret, fc1.toNat)

/-- The check for space of `write_non_existing`. -/
def makeRoom (nclu : Nat) : M Env Int := do
  let ret ← checkChains cfg nclu
  if cfg.wear then
    if ret = errFsFull ∨ (0 < ret ∧ ret < nclu) then do
      let ret ← reclaim cfg
      if 0 ≤ ret then do
        let ret ← checkChains cfg nclu
        if ret = nclu then pure errSuccess
        else if 0 < ret ∧ ret < nclu then pure errFsFull
        else pure ret
      else pure ret
    else pure errSuccess
  else if 0 < ret ∧ ret < nclu then pure errFsFull
  else pure errSuccess

/-- `write_non_existing` -/
def writeNonExisting (envId : Nat) (buf : List UInt8) : M Env (Int × Nat) := do
  let o ← getObj
  let nclu := bufLenToNClust o.clustSize buf.length
  let ret ← makeRoom cfg nclu
  if ret = errSuccess then writeChain cfg envId buf nclu else pure (ret, 0)

/-- The cluster behind `fc1` in the chain that is overwritten. -/
def nextOf (first : Bool) (fc1 : Nat) (next : Int) : M Env Int :=
  if first then pure next else findNextCluster cfg fc1

/-- The rest of the old chain is deleted. -/
def dropRest (next : Int) : M Env (Option Int) :=
  if next = nodeEnd then pure (some errSuccess) else deleteChain cfg next.toNat

/-- The next cluster of the chain, or a new one. -/
def extendChain (fc1 : Nat) (next : Int) : M Env Int :=
  if next = nodeEnd then findFreeCluster cfg (fc1 + 1) else pure next

/-- The loop of `write_existing`; `next` is the successor of the first cluster. -/
def existingLoop (envId len crc : Nat) : Nat → Bool → Nat → Int → List UInt8 → M Env (Option Int)
  | 0, _, _, _, _ => pure (some errSuccess)
  | k + 1, first, fc1, next, buf => do
    let o ← getObj
    let room := clusterRoom o.clustSize first
    let next ← nextOf cfg first fc1 next
    if next < 0 then pure (some next)
    else if buf.length ≤ room then do
      match ← dropRest cfg next with
      | none => pure none
      | some ret =>
        if ret ≠ errSuccess then pure (some ret)
        else
          match ← flashWrite cfg (cfg.page o) fc1 o.clustSize
              (clusterHeader first envId nodeEnd len crc ++ buf) with
          | .error e => pure (some e)
          | .ok () => existingLoop envId len crc k false fc1 nodeEnd []
    else do
      let fc2 ← extendChain cfg fc1 next
      -- a failure of the search is returned for the first cluster only
      if fc2 < 0 then pure (some (if first then fc2 else errSuccess))
      else do
        setLast first fc1
        match ← flashWrite cfg (cfg.page o) fc1 o.clustSize
            (clusterHeader first envId fc2.toNat len crc ++ buf.take room) with
        | .error e => pure (some e)
        | .ok () => existingLoop envId len crc k false fc2.toNat nodeEnd (buf.drop room)

/-- The check for space of `write_existing`: it fails. -/
def growFails (diff : Int) : M Env Bool := do
  if 0 < diff then
    let ret ← checkChains cfg diff.toNat
    pure (0 < ret ∧ ret < diff)
  else pure false

/-- `write_existing` -/
def writeExisting (envId : Nat) (buf : List UInt8) : M Env (Option Int) := do
  let o ← getObj
  let reqClu := bufLenToNClust o.clustSize buf.length
  let (fc1, entry) ← findFirst cfg envId
  if fc1 ≤ 0 then pure (some fc1)
  else do
    let usedClu := bufLenToNClust o.clustSize entry.len
    let fails ← growFails cfg ((reqClu : Int) - usedClu)
    if fails then pure (some errFsFull)
    else existingLoop cfg envId buf.length (crc16 buf) reqClu true fc1.toNat entry.next buf

/-! ## the calls -/

/-- `++env_id` -/
def nextId (envId : Nat) : Nat := (envId + 1) % 2 ^ 32

/-- The end of `set`. -/
def setDone (envId : Nat) (ret : Int) (elem : Nat) : M Env (Option Int) := do
  let o ← getObj
  setObj { o with lru := if ret = errSuccess ∧ elem ≠ 0 then lruPut envId elem o.lru else o.lru }
  pure (some ret)

/-- `set` behind the deletion of the old value; `ret` is the result so far. -/
def setNew (envId : Nat) (buf : List UInt8) (ret : Int) : M Env (Option Int) := do
  if ret = errInvalidId ∨ cfg.wear = true then do
    let (ret, elem) ← writeNonExisting cfg envId buf
    setDone envId ret elem
  else writeExisting cfg envId buf

/-- `set` behind `init_fs`. -/
def setValue (envId : Nat) (buf : List UInt8) : M Env (Option Int) := do
  let (ret, _) ← findFirst cfg envId
  if 0 < ret ∧ cfg.wear = true then
    match ← deleteChain cfg ret.toNat with
    | none => pure none
    | some ret => if ret ≠ errSuccess then pure (some ret) else setNew cfg envId buf ret
  else setNew cfg envId buf ret

/-- `fs_env::set` -/
def set (envId : Nat) (buf : List UInt8) : M Env (Option Int) :=
  let envId := nextId envId
  if nodeEnd ≤ envId then pure (some errInvalidId)
  else if 65535 < buf.length then pure (some errRangeId)
  else do
    let ret ← initFs cfg
    if ret ≠ errSuccess then pure (some ret) else setValue cfg envId buf

/-- The loop of `get`: the result, the bytes copied and their checksum. -/
def getLoop (page cs : Nat) : Nat → Nat → Nat → List UInt8 → Crc → M Env (Int × List UInt8 × Crc)
  | 0, _, _, buf, crc => pure (errSuccess, buf, crc)
  | fuel + 1, clu, len, buf, crc =>
    if clu ≠ nodeEnd ∧ 0 < len then do
      match ← flashRead cfg page clu cs cs with
      | .error e => pure (e, buf, crc)
      | .ok lbuf =>
        let w := ofBytes (lbuf.take 2)
        if w % 2 = 0 then pure (errFsFmt, buf, crc)
        else
          let data := (lbuf.drop 2).take (min len (cs - 2))
          getLoop page cs fuel (w / 2) (len - min len (cs - 2)) (buf ++ data) (crc.feed data)
    else pure (errSuccess, buf, crc)

/-- `get` with the first cluster `clu` and its header. -/
def getChain (clu : Nat) (node : Node) (bufLen : Nat) : M Env (Int × List UInt8) := do
  let o ← getObj
  match ← flashRead cfg (cfg.page o) clu o.clustSize o.clustSize with
  | .error e => pure (e, [])
  | .ok lbuf =>
    if bufLen < node.len then pure (errBufOvrflow, [])
    else do
      let rrl := min node.len (o.clustSize - 8)
      let data := (lbuf.drop 8).take rrl
      let (ret, buf, crc) ← getLoop cfg (cfg.page o) o.clustSize node.len node.next (node.len - rrl)
        data (crcInit.feed data)
      if ret ≠ errSuccess then pure (ret, buf)
      else if crc.value ≠ node.crc then pure (errFsFmt, buf)
      else pure (node.len, buf)

/-- `get` behind `init_fs`. -/
def getValue (envId bufLen : Nat) : M Env (Int × List UInt8) := do
  let (clu, node) ← findFirst cfg envId
  if clu ≤ 0 then pure (clu, []) else getChain cfg clu.toNat node bufLen

/-- `fs_env::get`: the value returned, and what is in the buffer. -/
def get (envId bufLen : Nat) : M Env (Int × List UInt8) :=
  let envId := nextId envId
  if nodeEnd ≤ envId then pure (errInvalidId, [])
  else if 65535 < bufLen then pure (errRangeId, [])
  else do
    let ret ← initFs cfg
    if ret < 0 then pure (ret, []) else getValue cfg envId bufLen

/-- The end of `unset`. -/
def unsetDone (envId : Nat) (ret : Int) : M Env (Option Int) := do
  let o ← getObj
  setObj { o with lru := if ret = errSuccess then lruPut envId firstCluster o.lru else o.lru }
  pure (some ret)

/-- `unset` behind `init_fs`. -/
def unsetValue (envId : Nat) : M Env (Option Int) := do
  let (ret, _) ← findFirst cfg envId
  if 0 < ret then
    match ← deleteChain cfg ret.toNat with
    | none => pure none
    | some ret => unsetDone envId ret
  else unsetDone envId ret

/-- `fs_env::unset` -/
def unset (envId : Nat) : M Env (Option Int) :=
  let envId := nextId envId
  if nodeEnd ≤ envId then pure (some errInvalidId)
  else do
    let ret ← initFs cfg
    if ret < 0 then pure (some ret) else unsetValue cfg envId

/-! ## runs -/

/-- The object and the medium.  `vals` is the history: the bytes of the last successful
`set` of each name, if it was not unset since. -/
structure State where
  obj : Env
  cells : Cells
  vals : Nat → Option (List UInt8)

inductive Call where
  | set (id : Nat) (buf : List UInt8)
  | unset (id : Nat)
  | get (id bufLen : Nat)
  /-- A new object on the same medium. -/
  | remount
  | format

/-- A new object on a medium. -/
def State.new (cells : Cells) : State := ⟨Env.new, cells, fun _ => none⟩

/-- An error-free medium. -/
def State.medium (s : State) : Medium Env := ⟨s.obj, s.cells, [], []⟩

/-- What `get` returns. -/
def State.read (s : State) (id bufLen : Nat) : Int × List UInt8 := (get cfg id bufLen s.medium).1

def exec (s : State) : Call → State
  | .set id buf =>
    let r := set cfg id buf s.medium
    ⟨r.2.obj, r.2.cells, if r.1 = some errSuccess then Function.update s.vals id (some buf) else s.vals⟩
  | .unset id =>
    let r := unset cfg id s.medium
    ⟨r.2.obj, r.2.cells, Function.update s.vals id none⟩
  | .get id bufLen =>
    let r := get cfg id bufLen s.medium
    ⟨r.2.obj, r.2.cells, s.vals⟩
  | .remount => ⟨Env.new, s.cells, s.vals⟩
  | .format =>
    let r := format cfg s.medium
    ⟨r.2.obj, r.2.cells, if r.1 = errSuccess then fun _ => none else s.vals⟩

end Isix.FsEnv
