import RiscvBm.Fs.Image

/-!
# Making a file system (`mkfs/mkfs.c`)

`mkfs` writes an image with a root directory and one file for each argument. It is a
program of the host that shares only `fs.h` with the kernel: blocks and inodes are handed
out one after the other, a file grows by `iappend`, and the bitmap is written at the end.

`rsect` reads past the end of the image only in a file system that is too large; it
fails there, and the program exits.
-/

namespace RiscvBm.Mkfs

open Bio (bsize Data)
open Fs Bytes Wp Function

/-! ## §1  Layout -/

def fssize : ℕ := 1000
def ninodes : ℕ := 200
def nbitmap : ℕ := fssize / (bsize * 8) + 1
def ninodeblocks : ℕ := ninodes / ipb + 1
def nlog : ℕ := logsize
def nmeta : ℕ := 2 + nlog + ninodeblocks + nbitmap

def sb : Superblock where
  magic := fsmagic
  size := fssize
  nblocks := fssize - nmeta
  ninodes := ninodes
  nlog := nlog
  logstart := 2
  inodestart := 2 + nlog
  bmapstart := 2 + nlog + ninodeblocks

/-- The block with `sb` at its start. -/
def sbBlock : Data :=
  setWords zero 0 (fun j => [sb.magic, sb.size, sb.nblocks, sb.ninodes, sb.nlog, sb.logstart,
    sb.inodestart, sb.bmapstart].getD j 0) 8

/-! ## §2  Sectors and inodes -/

structure Img where
  /-- the sectors of `fs.img` -/
  disk : ℕ → Data
  freeinode : ℕ
  freeblock : ℕ

inductive Abort where
  | read                 -- `die("read")`
  | rootino              -- `assert(rootino == ROOTINO)`
  | slash                -- `assert(index(shortname, '/') == 0)`
  | maxfile              -- `assert(fbn < MAXFILE)`
  | balloc               -- `assert(used < BSIZE*8)`
deriving DecidableEq, Repr

abbrev Prog := Wp.Prog Img Abort

def rsect (sec : ℕ) : Prog Data := do
  let s ← get
  require (sec < fssize) .read
  return s.disk sec

def wsect (sec : ℕ) (buf : Data) : Prog Unit :=
  modify fun s => { s with disk := update s.disk sec buf }

def winode (inum : ℕ) (ip : Dinode) : Prog Unit := do
  let buf ← rsect (iblock sb inum)
  wsect (iblock sb inum) (writeDinode buf (inum % ipb) ip)

def rinode (inum : ℕ) : Prog Dinode := do
  let buf ← rsect (iblock sb inum)
  return readDinode buf (inum % ipb)

def ialloc (type : BitVec 16) : Prog ℕ := do
  let s ← get
  modify fun s => { s with freeinode := s.freeinode + 1 }
  winode s.freeinode { Dinode.fresh type with nlink := 1 }
  return s.freeinode

/-- The bitmap block in which the first `used` bits are set. -/
def bitmap (used : ℕ) : Data := (List.range used).foldl setBit zero

def balloc (used : ℕ) : Prog Unit := do
  require (used < bsize * 8) .balloc
  wsect sb.bmapstart (bitmap used)

/-! ## §3  Appending to a file -/

/-- `freeblock++` -/
def newBlock : Prog ℕ := do
  let s ← get
  modify fun s => { s with freeblock := s.freeblock + 1 }
  return s.freeblock

/-- `if(din.addrs[i] == 0) din.addrs[i] = freeblock++;` The result is the inode and
`din.addrs[i]`. -/
def addrBlock (din : Dinode) (i : Fin 13) : Prog (Dinode × ℕ) :=
  if (din.addrs i).toNat = 0 then do
    let b ← newBlock
    return (din.setAddr i b, ((din.setAddr i b).addrs i).toNat)
  else return (din, (din.addrs i).toNat)

/-- The block `x` of `iappend` for the `fbn`-th block of the file. -/
def blockFor (din : Dinode) (fbn : ℕ) : Prog (Dinode × ℕ) :=
  if fbn < ndirect then addrBlock din (Fin.ofNat 13 fbn)
  else do
    let (din, ind) ← addrBlock din indirect
    let a ← rsect ind
    if wordAt a (fbn - ndirect) = 0 then do
      let b ← newBlock
      let a := setLE a (4 * (fbn - ndirect)) 4 b
      wsect ind a
      return (din, wordAt a (fbn - ndirect))
    else return (din, wordAt a (fbn - ndirect))

/-- The loop of `iappend`; `p` is what is left to append. A round takes at least one
byte, so `p.length` rounds are enough. -/
def iappendLoop : ℕ → Dinode → ℕ → List UInt8 → Prog (Dinode × ℕ)
  | 0, din, off, _ => return (din, off)
  | fuel + 1, din, off, p =>
    if p = [] then return (din, off)
    else do
      let fbn := off / bsize
      require (fbn < maxfile) .maxfile
      let (din, x) ← blockFor din fbn
      let n1 := min p.length ((fbn + 1) * bsize - off)
      let buf ← rsect x
      wsect x (copyIn buf (off - fbn * bsize) (kernelSrc p) 0 n1)
      iappendLoop fuel din (off + n1) (p.drop n1)

def iappend (inum : ℕ) (p : List UInt8) : Prog Unit := do
  let din ← rinode inum
  let (din, off) ← iappendLoop p.length din din.size.toNat p
  winode inum { din with size := .ofNat 32 off }

/-! ## §4  `main` -/

/-- An argument of `mkfs`: its path, and what `read` returns for the file until it
returns 0. -/
structure InputFile where
  path : List UInt8
  reads : List (List UInt8)
  noNul : 0 ∉ path
  reads_ok : ∀ r ∈ reads, r ≠ [] ∧ r.length ≤ bsize

def InputFile.bytes (f : InputFile) : List UInt8 := f.reads.flatten

/-- `"user/"` -/
def userDir : List UInt8 := [117, 115, 101, 114, 47]

def underscore : UInt8 := 95

/-- `shortname` before the leading `_` is taken off. -/
def shortname (path : List UInt8) : List UInt8 :=
  if path.take userDir.length = userDir then path.drop userDir.length else path

/-- The name in the image. -/
def InputFile.name (f : InputFile) : List UInt8 :=
  if (shortname f.path).head? = some underscore then (shortname f.path).tail
  else shortname f.path

/-- `bzero(&de, sizeof(de)); de.inum = inum; strncpy(de.name, name, DIRSIZ);` -/
def direntBytes (name : List UInt8) (inum : ℕ) : List UInt8 :=
  (dirent name inum).takeD direntSize 0

def addFile (rootino : ℕ) (f : InputFile) : Prog Unit := do
  require (slash ∉ shortname f.path) .slash
  let inum ← ialloc tFile
  iappend rootino (direntBytes f.name inum)
  forEach (iappend inum) f.reads

/-- "fix size of root inode dir" -/
def fixRoot (rootino : ℕ) : Prog Unit := do
  let din ← rinode rootino
  let off := (din.size.toNat / bsize + 1) * bsize
  winode rootino { din with size := .ofNat 32 off }

def main (files : List InputFile) : Prog Unit := do
  wsect 1 sbBlock
  let root ← ialloc tDir
  require (root = rootino) .rootino
  iappend root (direntBytes dot root)
  iappend root (direntBytes dotdot root)
  forEach (addFile root) files
  fixRoot root
  let s ← get
  balloc s.freeblock

/-- The image that `main` writes, from `FSSIZE` sectors of zeroes. -/
def mkfs (files : List InputFile) : Except Abort (ℕ → Data) :=
  match main files ⟨fun _ => zero, 1, nmeta⟩ with
  | .ok (_, s) => .ok s.disk
  | .error e => .error e

end RiscvBm.Mkfs
