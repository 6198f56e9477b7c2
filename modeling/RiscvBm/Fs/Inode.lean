import RiscvBm.Fs.Bio

/-!
# Blocks and inodes (`kernel/fs.c`)

The lower half of the file system: the block bitmap, the table of in-memory
inodes and the contents of files. The buffer cache and the log are seen through:
`bread` gives the current contents of a block and `logWrite` sets them, so
`disk` is the disk as the running kernel sees it.

One call runs at a time. The sleep lock of an inode is the flag `locked`, and
taking a lock that is already taken never returns (`Panic.stuck`).
-/

namespace RiscvBm.Fs

open Bio (bsize Data)
open Bytes Wp Function

/-! ## §1  The disk format (`fs.h`) -/

structure Superblock where
  magic : ℕ
  size : ℕ
  nblocks : ℕ
  ninodes : ℕ
  nlog : ℕ
  logstart : ℕ
  inodestart : ℕ
  bmapstart : ℕ

def fsmagic : ℕ := 0x10203040
def rootino : ℕ := 1
def ndirect : ℕ := 12
def nindirect : ℕ := 256
def maxfile : ℕ := ndirect + nindirect
/-- Inodes per block. -/
def ipb : ℕ := 16
/-- Bitmap bits per block. -/
def bpb : ℕ := 8192

/-- `IBLOCK(i, sb)` -/
def iblock (sb : Superblock) (i : ℕ) : ℕ := i / ipb + sb.inodestart

/-- `BBLOCK(b, sb)` -/
def bblock (sb : Superblock) (b : ℕ) : ℕ := b / bpb + sb.bmapstart

/-- `BBLOCK(b, sb)` where `b` is an `int`, given by its 32 bits: from `2 ^ 31` on it is negative,
and so is the quotient. -/
def bblockInt (sb : Superblock) (b : ℕ) : ℕ :=
  if b < 2 ^ 31 then bblock sb b else (bblock sb b + (2 ^ 32 - 2 ^ 32 / bpb)) % 2 ^ 32

def tDir : BitVec 16 := 1
def tFile : BitVec 16 := 2
def tDevice : BitVec 16 := 3

/-- `struct dinode`; slot 12 of `addrs` is the indirect block. -/
structure Dinode where
  type : BitVec 16
  major : BitVec 16
  minor : BitVec 16
  nlink : BitVec 16
  size : BitVec 32
  addrs : Fin 13 → BitVec 32

instance neZero_addrs : NeZero 13 := ⟨by decide⟩

def indirect : Fin 13 := 12

/-- `memset(dip, 0, sizeof(*dip)); dip->type = type;` -/
def Dinode.fresh (type : BitVec 16) : Dinode := ⟨type, 0, 0, 0, 0, fun _ => 0⟩

/-- The `j`-th dinode of an inode block. -/
def readDinode (b : Data) (j : ℕ) : Dinode where
  type := .ofNat 16 (getLE b (64 * j) 2)
  major := .ofNat 16 (getLE b (64 * j + 2) 2)
  minor := .ofNat 16 (getLE b (64 * j + 4) 2)
  nlink := .ofNat 16 (getLE b (64 * j + 6) 2)
  size := .ofNat 32 (getLE b (64 * j + 8) 4)
  addrs := fun k => .ofNat 32 (getLE b (64 * j + 12 + 4 * k.val) 4)

def writeDinode (b : Data) (j : ℕ) (d : Dinode) : Data :=
  let b := setLE b (64 * j) 2 d.type.toNat
  let b := setLE b (64 * j + 2) 2 d.major.toNat
  let b := setLE b (64 * j + 4) 2 d.minor.toNat
  let b := setLE b (64 * j + 6) 2 d.nlink.toNat
  let b := setLE b (64 * j + 8) 4 d.size.toNat
  setWords b (64 * j + 12) (fun k => (d.addrs (Fin.ofNat 13 k)).toNat) 13

/-- `((uint *)bp->data)[j]` -/
def wordAt (b : Data) (j : ℕ) : ℕ := getLE b (4 * j) 4

def readsb (b : Data) : Superblock where
  magic := wordAt b 0
  size := wordAt b 1
  nblocks := wordAt b 2
  ninodes := wordAt b 3
  nlog := wordAt b 4
  logstart := wordAt b 5
  inodestart := wordAt b 6
  bmapstart := wordAt b 7

/-! ## §2  State -/

/-- `struct inode`: the fields after `valid` are the copy of the disk inode. -/
structure Inode extends Dinode where
  dev : ℕ
  inum : ℕ
  ref : ℤ
  locked : Bool
  valid : Bool

instance : Inhabited Inode := ⟨⟨.fresh 0, 0, 0, 0, false, false⟩⟩

/-- A pointer to an entry of `itable`. -/
abbrev Ptr := Fin ninode

structure St where
  sb : Superblock
  disk : ℕ → Data
  inode : Ptr → Inode

inductive Panic where
  | invalidFs              -- "invalid file system"
  | outOfBlocks            -- "balloc: out of blocks"
  | freeingFreeBlock       -- "freeing free block"
  | ialloc                 -- "ialloc: no inodes"
  | ilock
  | noType                 -- "ilock: no type"
  | iunlock
  | iget                   -- "iget: no inodes"
  | bmap                   -- "bmap: out of range"
  | dirlookupNotDir
  | dirlookupRead
  | dirlinkRead
  | dirlink
  | createDots
  | createDirlink
  | isdirempty             -- "isdirempty: readi"
  | unlinkNlink            -- "unlink: nlink < 1"
  | unlinkWritei           -- "unlink: writei"
  | fileclose
  | filedup
  | stuck                  -- a lock that is never released, a loop that never ends
  | nullPointer
  | badDescriptor          -- `ofile` indexed outside its bounds
deriving DecidableEq, Repr

abbrev Prog := Wp.Prog St Panic

def setInode (s : St) (k : Ptr) (ip : Inode) : St := { s with inode := update s.inode k ip }

def setBlock (s : St) (bno : ℕ) (data : Data) : St := { s with disk := update s.disk bno data }

def bread (_dev bno : ℕ) : Prog Data := do
  let s ← get
  return s.disk bno

/-- `log_write(bp); brelse(bp);` for a buffer whose data was changed -/
def logWrite (bno : ℕ) (data : Data) : Prog Unit := modify fun s => setBlock s bno data

/-! ## §3  The bitmap -/

def bzero (_dev bno : ℕ) : Prog Unit := logWrite bno zero

/-- The inner loop of `balloc`, from bit `bi` on. -/
def findClear (size b : ℕ) (data : Data) : ℕ → ℕ → Option ℕ
  | 0, _ => none
  | n + 1, bi =>
    if (b * bpb + bi) % 2 ^ 32 < size then
      if byteAt data (bi / 8) &&& 1 <<< (bi % 8) = 0 then some bi
      else findClear size b data n (bi + 1)
    else none

/-- The outer loop of `balloc`, from block `b` on. Above the last multiple of `BPB` that an `int`
has, `b` comes back to 0 and the loop never ends. -/
def ballocLoop (dev : ℕ) : ℕ → ℕ → Prog ℕ
  | 0, _ => do
    let s ← get
    throw (if s.sb.size ≤ 2 ^ 32 - bpb then .outOfBlocks else .stuck)
  | n + 1, b => do
    let s ← get
    let bp ← bread dev (bblockInt s.sb b)
    match findClear s.sb.size b bp bpb 0 with
    | some bi => do
      logWrite (bblockInt s.sb b) (setBit bp bi)
      bzero dev (b + bi)
      return b + bi
    | none => ballocLoop dev n (b + bpb)

def balloc (dev : ℕ) : Prog ℕ := do
  let s ← get
  ballocLoop dev ((s.sb.size + (bpb - 1)) / bpb) 0

def bfree (dev bn : ℕ) : Prog Unit := do
  let s ← get
  let bp ← bread dev (bblock s.sb bn)
  let bi := bn % bpb
  require (byteAt bp (bi / 8) &&& 1 <<< (bi % 8) ≠ 0) .freeingFreeBlock
  logWrite (bblock s.sb bn) (clearBit bp bi)

/-! ## §4  The inode table -/

/-- The loop of `iget` returns the first entry for the inode; it has noted the
first entry without references when there is none. -/
def iget (dev inum : ℕ) : Prog Ptr := do
  let s ← get
  match (List.finRange ninode).find? fun k =>
      0 < (s.inode k).ref ∧ (s.inode k).dev = dev ∧ (s.inode k).inum = inum with
  | some k => do
    modify fun s => setInode s k { s.inode k with ref := (s.inode k).ref + 1 }
    return k
  | none =>
    match (List.finRange ninode).find? fun k => (s.inode k).ref = 0 with
    | none => throw .iget
    | some k => do
      modify fun s => setInode s k
        { s.inode k with dev := dev, inum := inum, ref := 1, valid := false }
      return k

/-- `ialloc`, from `inum` on. -/
def iallocLoop (dev : ℕ) (type : BitVec 16) : ℕ → ℕ → Prog Ptr
  | 0, _ => throw .ialloc
  | n + 1, inum => do
    let s ← get
    let bp ← bread dev (iblock s.sb inum)
    if (readDinode bp (inum % ipb)).type = 0 then do
      logWrite (iblock s.sb inum) (writeDinode bp (inum % ipb) (.fresh type))
      iget dev inum
    else iallocLoop dev type n (inum + 1)

def ialloc (dev : ℕ) (type : BitVec 16) : Prog Ptr := do
  let s ← get
  iallocLoop dev type (s.sb.ninodes - 1) 1

/-- `acquiresleep(&ip->lock)` -/
def acquiresleep (k : Ptr) : Prog Unit := do
  let s ← get
  require (!(s.inode k).locked) .stuck
  modify fun s => setInode s k { s.inode k with locked := true }

/-- `releasesleep(&ip->lock)` -/
def releasesleep (k : Ptr) : Prog Unit :=
  modify fun s => setInode s k { s.inode k with locked := false }

/-- The part of `ilock` that fills an entry from the disk. -/
def load (k : Ptr) : Prog Unit := do
  let s ← get
  let bp ← bread (s.inode k).dev (iblock s.sb (s.inode k).inum)
  let dip := readDinode bp ((s.inode k).inum % ipb)
  modify fun s => setInode s k { s.inode k with toDinode := dip, valid := true }
  require (dip.type ≠ 0) .noType

def ilock (k : Ptr) : Prog Unit := do
  let s ← get
  require (1 ≤ (s.inode k).ref) .ilock
  acquiresleep k
  if (s.inode k).valid then return else load k

def iunlock (k : Ptr) : Prog Unit := do
  let s ← get
  require ((s.inode k).locked ∧ 1 ≤ (s.inode k).ref) .iunlock
  releasesleep k

def idup (k : Ptr) : Prog Ptr := do
  modify fun s => setInode s k { s.inode k with ref := (s.inode k).ref + 1 }
  return k

def iupdate (k : Ptr) : Prog Unit := do
  let s ← get
  let ip := s.inode k
  let bp ← bread ip.dev (iblock s.sb ip.inum)
  logWrite (iblock s.sb ip.inum) (writeDinode bp (ip.inum % ipb) ip.toDinode)

/-- Assignments to fields of `*ip`, followed by `iupdate(ip)`. -/
def putInode (k : Ptr) (f : Inode → Inode) : Prog Unit := do
  modify fun s => setInode s k (f (s.inode k))
  iupdate k

/-! ## §5  Contents of inodes -/

/-- `ip->addrs[i] = addr` -/
def setAddr (s : St) (k : Ptr) (i : Fin 13) (addr : ℕ) : St :=
  setInode s k { s.inode k with addrs := update (s.inode k).addrs i (.ofNat 32 addr) }

/-- `if(ip->addrs[i]){ bfree(ip->dev, ip->addrs[i]); ip->addrs[i] = 0; }` -/
def truncDirect (k : Ptr) (i : ℕ) : Prog Unit := do
  let s ← get
  let addr := ((s.inode k).addrs (Fin.ofNat 13 i)).toNat
  if addr = 0 then return
  else do
    bfree (s.inode k).dev addr
    modify fun s => setAddr s k (Fin.ofNat 13 i) 0

/-- `if(a[j]) bfree(ip->dev, a[j]);` -/
def truncEntry (dev : ℕ) (a : Data) (j : ℕ) : Prog Unit :=
  if wordAt a j = 0 then return else bfree dev (wordAt a j)

def truncIndirect (k : Ptr) : Prog Unit := do
  let s ← get
  let addr := ((s.inode k).addrs indirect).toNat
  if addr = 0 then return
  else do
    let bp ← bread (s.inode k).dev addr
    forRange (truncEntry (s.inode k).dev bp) 0 nindirect
    bfree (s.inode k).dev addr
    modify fun s => setAddr s k indirect 0

def itrunc (k : Ptr) : Prog Unit := do
  forRange (truncDirect k) 0 ndirect
  truncIndirect k
  putInode k fun ip => { ip with size := 0 }

/-- The branch of `iput` that frees the inode. -/
def iputLast (k : Ptr) : Prog Unit := do
  acquiresleep k
  itrunc k
  putInode k fun ip => { ip with type := 0 }
  modify fun s => setInode s k { s.inode k with valid := false }
  releasesleep k

def iput (k : Ptr) : Prog Unit := do
  let s ← get
  let ip := s.inode k
  (if ip.ref = 1 ∧ ip.valid ∧ ip.nlink = 0 then iputLast k else pure ())
  modify fun s => setInode s k { s.inode k with ref := (s.inode k).ref - 1 }

def iunlockput (k : Ptr) : Prog Unit := do
  iunlock k
  iput k

/-- `if((addr = ip->addrs[i]) == 0) ip->addrs[i] = addr = balloc(ip->dev);` -/
def bmapAddr (k : Ptr) (i : Fin 13) : Prog ℕ := do
  let s ← get
  let addr := ((s.inode k).addrs i).toNat
  if addr = 0 then do
    let addr ← balloc (s.inode k).dev
    modify fun s => setAddr s k i addr
    return addr
  else return addr

def bmap (k : Ptr) (bn : ℕ) : Prog ℕ := do
  if bn < ndirect then bmapAddr k (Fin.ofNat 13 bn)
  else if bn - ndirect < nindirect then do
    let ind ← bmapAddr k indirect
    let s ← get
    let bp ← bread (s.inode k).dev ind
    let addr := wordAt bp (bn - ndirect)
    if addr = 0 then do
      let addr ← balloc (s.inode k).dev
      logWrite ind (setLE bp (4 * (bn - ndirect)) 4 addr)
      return addr
    else return addr
  else throw .bmap

/-- The bytes `[off, off + m)` of a block. -/
def slice (b : Data) (off m : ℕ) : List UInt8 :=
  (List.range m).map fun i => UInt8.ofNat (byteAt b (off + i))

/-- The loop of `readi` into kernel memory; `n` bytes are still to be read. A round
reads at least one byte, so `n` rounds are enough. -/
def readiLoop (k : Ptr) : ℕ → ℕ → ℕ → Prog (List UInt8)
  | 0, _, _ => return []
  | fuel + 1, off, n =>
    if n = 0 then return []
    else do
      let s ← get
      let bno ← bmap k (off / bsize)
      let bp ← bread (s.inode k).dev bno
      let m := min n (bsize - off % bsize)
      let rest ← readiLoop k fuel (off + m) (n - m)
      return slice bp (off % bsize) m ++ rest

/-- `readi` with a kernel buffer: the bytes it stores there. -/
def readi (k : Ptr) (off n : ℕ) : Prog (List UInt8) := do
  let s ← get
  let size := (s.inode k).size.toNat
  if size < off ∨ (off + n) % 2 ^ 32 < off then return []
  else
    let n := if size < (off + n) % 2 ^ 32 then size - off else n
    readiLoop k n off n

/-- The memory `writei` copies from, from `src` on; `none` where no page is mapped. -/
abbrev Src := ℕ → Option UInt8

/-- All of the `m` bytes from `i` on can be read. -/
def Src.mapped (src : Src) (i m : ℕ) : Bool := (List.range m).all fun j => (src (i + j)).isSome

/-- `spcae_data_copy_in(bp->data + off, src + i, m)`: copying stops at the first
page that is not mapped. -/
def copyIn (b : Data) (off : ℕ) (src : Src) (i m : ℕ) : Data := fun p =>
  if off ≤ p.val ∧ p.val < off + m ∧ src.mapped i (p.val - off + 1) then
    (src (i + (p.val - off))).getD 0
  else b p

/-- The loop of `writei`: `tot` bytes are written. The bytes of a copy that failed
stay in the buffer, which is not logged. The result is `tot` and `off`. -/
def writeiLoop (k : Ptr) (src : Src) (n : ℕ) : ℕ → ℕ → ℕ → Prog (ℕ × ℕ)
  | 0, tot, off => return (tot, off)
  | fuel + 1, tot, off =>
    if tot < n then do
      let s ← get
      let bno ← bmap k (off / bsize)
      let bp ← bread (s.inode k).dev bno
      let m := min (n - tot) (bsize - off % bsize)
      modify fun s => setBlock s bno (copyIn bp (off % bsize) src tot m)
      if src.mapped tot m then writeiLoop k src n fuel (tot + m) (off + m)
      else return (tot, off)
    else return (tot, off)

def writei (k : Ptr) (src : Src) (off n : ℕ) : Prog ℤ := do
  let s ← get
  if (s.inode k).size.toNat < off ∨ (off + n) % 2 ^ 32 < off then return -1
  else if maxfile * bsize < (off + n) % 2 ^ 32 then return -1
  else do
    let (tot, off) ← writeiLoop k src n n 0 off
    putInode k fun ip => if ip.size.toNat < off then { ip with size := .ofNat 32 off } else ip
    return tot

end RiscvBm.Fs
