import RiscvBm.Fs.Inode

/-!
# Directories, path names and the calls on paths (`kernel/fs.c`, `kernel/sysfile.c`)

Strings are lists of bytes without their terminating NUL. `cwd` is the field
`current->cwd`; the part of a system call that works on open files and processes
is in `RiscvBm.Fs.SysFile`.

`open` and `mknod` copy the path into an array of `MAXPATH` bytes with `strncpy`,
which leaves a path of `MAXPATH` bytes or more without a NUL; `beyond` is what
follows the array in memory, up to the next NUL.
-/

namespace RiscvBm.Fs

open Bio (bsize)
open Bytes Wp

/-! ## §1  Directory entries -/

def dirsiz : ℕ := 14
/-- `sizeof(struct dirent)` -/
def direntSize : ℕ := 16

/-- `de.inum` -/
def direntInum (de : List UInt8) : ℕ := (de.getD 0 0).toNat + 256 * (de.getD 1 0).toNat

/-- `de.name` -/
def direntName (de : List UInt8) : List UInt8 := de.drop 2

/-- The bytes of an entry: `strncpy(de.name, name, DIRSIZ); de.inum = inum;` -/
def dirent (name : List UInt8) (inum : ℕ) : List UInt8 :=
  UInt8.ofNat inum :: UInt8.ofNat (inum / 256) :: name.take dirsiz

/-- A kernel buffer as a source; bytes after the list are 0. -/
def kernelSrc (bytes : List UInt8) : Src := fun i => some (bytes.getD i 0)

/-- `namecmp(s, t) == 0` -/
def nameEq (s t : List UInt8) : Bool :=
  (s.take dirsiz).takeWhile (· ≠ 0) == (t.take dirsiz).takeWhile (· ≠ 0)

/-- The number of rounds of `for(off = 0; off < dp->size; off += sizeof(de))`. -/
def direntRounds (s : St) (dp : Ptr) : ℕ :=
  ((s.inode dp).size.toNat + (direntSize - 1)) / direntSize

/-- `if(readi(dp, (uint64)&de, off, sizeof(de)) != sizeof(de)) panic(e);` -/
def readDirent (dp : Ptr) (off : ℕ) (e : Panic) : Prog (List UInt8) := do
  let de ← readi dp off direntSize
  require (de.length = direntSize) e
  return de

def dirlookupLoop (dp : Ptr) (name : List UInt8) : ℕ → ℕ → Prog (Option (Ptr × ℕ))
  | 0, _ => return none
  | n + 1, off => do
    let de ← readDirent dp off .dirlookupRead
    if direntInum de ≠ 0 ∧ nameEq name (direntName de) then do
      let s ← get
      let ip ← iget (s.inode dp).dev (direntInum de)
      return some (ip, off)
    else dirlookupLoop dp name n (off + direntSize)

/-- `dirlookup`: the inode and the offset of its entry. -/
def dirlookup (dp : Ptr) (name : List UInt8) : Prog (Option (Ptr × ℕ)) := do
  let s ← get
  require ((s.inode dp).type = tDir) .dirlookupNotDir
  dirlookupLoop dp name (direntRounds s dp) 0

/-- The loop of `dirlink`: the offset of a free entry, or the end of the directory. -/
def findFreeDirent (dp : Ptr) : ℕ → ℕ → Prog ℕ
  | 0, off => return off
  | n + 1, off => do
    let de ← readDirent dp off .dirlinkRead
    if direntInum de = 0 then return off else findFreeDirent dp n (off + direntSize)

/-- `if(writei(dp, (uint64)&de, off, sizeof(de)) != sizeof(de)) panic(e);` -/
def writeDirent (dp : Ptr) (de : List UInt8) (off : ℕ) (e : Panic) : Prog Unit := do
  let n ← writei dp (kernelSrc de) off direntSize
  require (n = direntSize) e

def dirlink (dp : Ptr) (name : List UInt8) (inum : ℕ) : Prog ℤ := do
  let r ← dirlookup dp name
  match r with
  | some (ip, _) => do
    iput ip
    return -1
  | none => do
    let s ← get
    let off ← findFreeDirent dp (direntRounds s dp) 0
    writeDirent dp (dirent name inum) off .dirlink
    return 0

/-! ## §2  Path names -/

def slash : UInt8 := 47
def dot : List UInt8 := [46]
def dotdot : List UInt8 := [46, 46]

/-- `skipelem`: the first element, cut to `DIRSIZ` bytes, and the rest of the path. -/
def skipelem (path : List UInt8) : Option (List UInt8 × List UInt8) :=
  match path.dropWhile (· = slash) with
  | [] => none
  | p => some ((p.takeWhile (· ≠ slash)).take dirsiz,
      (p.dropWhile (· ≠ slash)).dropWhile (· = slash))

/-- The names that repeated calls of `skipelem` give. -/
def elems : ℕ → List UInt8 → List (List UInt8)
  | 0, _ => []
  | n + 1, path =>
    match skipelem path with
    | none => []
    | some (name, rest) => name :: elems n rest

/-- The loop of `namex` along the remaining names; the result is the inode and
the last name that `skipelem` stored. -/
def namexLoop (parent : Bool) (ip : Ptr) : List (List UInt8) → Prog (Option (Ptr × List UInt8))
  | [] =>
    if parent then do
      iput ip
      return none
    else return some (ip, [])
  | name :: rest => do
    ilock ip
    let s ← get
    if (s.inode ip).type ≠ tDir then do
      iunlockput ip
      return none
    else if parent ∧ rest = [] then do
      iunlock ip
      return some (ip, name)
    else do
      let next ← dirlookup ip name
      match next with
      | none => do
        iunlockput ip
        return none
      | some (next, _) => do
        iunlockput ip
        namexLoop parent next rest

/-- Where `namex` starts. -/
def startInode (cwd : Option Ptr) (path : List UInt8) : Prog Ptr :=
  if path.head? = some slash then iget rootdev rootino
  else match cwd with
    | none => throw .nullPointer
    | some ip => idup ip

/-- `namex`; every element takes at least one byte of the path. -/
def namex (cwd : Option Ptr) (path : List UInt8) (parent : Bool) :
    Prog (Option (Ptr × List UInt8)) := do
  let ip ← startInode cwd path
  namexLoop parent ip (elems path.length path)

def namei (cwd : Option Ptr) (path : List UInt8) : Prog (Option Ptr) := do
  let r ← namex cwd path false
  return r.map Prod.fst

def nameiparent (cwd : Option Ptr) (path : List UInt8) : Prog (Option (Ptr × List UInt8)) :=
  namex cwd path true

/-! ## §3  `create` and `open` -/

/-- `create` after the name was found. -/
def createFound (dp ip : Ptr) (type : BitVec 16) : Prog (Option Ptr) := do
  iunlockput dp
  ilock ip
  let s ← get
  if type = tFile ∧ ((s.inode ip).type = tFile ∨ (s.inode ip).type = tDevice) then
    return some ip
  else do
    iunlockput ip
    return none

/-- `.` and `..` of a new directory -/
def createDots (dp ip : Ptr) : Prog Unit := do
  putInode dp fun dp => { dp with nlink := dp.nlink + 1 }
  let s ← get
  let r ← dirlink ip dot (s.inode ip).inum
  require (0 ≤ r) .createDots
  let s ← get
  let r ← dirlink ip dotdot (s.inode dp).inum
  require (0 ≤ r) .createDots

/-- `create` of a new inode -/
def createNew (dp : Ptr) (name : List UInt8) (type major minor : BitVec 16) :
    Prog (Option Ptr) := do
  let s ← get
  let ip ← ialloc (s.inode dp).dev type
  ilock ip
  putInode ip fun ip => { ip with major := major, minor := minor, nlink := 1 }
  (if type = tDir then createDots dp ip else pure ())
  let s ← get
  let r ← dirlink dp name (s.inode ip).inum
  require (0 ≤ r) .createDirlink
  iunlockput dp
  return some ip

def create (cwd : Option Ptr) (path : List UInt8) (type major minor : BitVec 16) :
    Prog (Option Ptr) := do
  let r ← nameiparent cwd path
  match r with
  | none => return none
  | some (dp, name) => do
    ilock dp
    let found ← dirlookup dp name
    match found with
    | some (ip, _) => createFound dp ip type
    | none => createNew dp name type major minor

def oWronly : BitVec 32 := 0x001
def oRdwr : BitVec 32 := 0x002
def oCreate : BitVec 32 := 0x200
def oTrunc : BitVec 32 := 0x400

/-- The string in the array `path[MAXPATH]` after `strncpy`. -/
def pathArray (pathname beyond : List UInt8) : List UInt8 :=
  if pathname.length < maxpath then pathname else pathname.take maxpath ++ beyond

/-- The first part of `__sys_open`: the inode, locked. -/
def openInode (cwd : Option Ptr) (path : List UInt8) (omode : BitVec 32) : Prog (Option Ptr) :=
  if omode &&& oCreate ≠ 0 then create cwd path tFile 0 0
  else do
    let r ← namei cwd path
    match r with
    | none => return none
    | some ip => do
      ilock ip
      let s ← get
      if (s.inode ip).type = tDir ∧ omode ≠ 0 then do
        iunlockput ip
        return none
      else return some ip

/-! ## §4  System calls on paths -/

def enoent : ℤ := 2
def einval : ℤ := 22
def enametoolong : ℤ := 36

/-- `create`, then `iunlockput`. -/
def createAndPut (cwd : Option Ptr) (path : List UInt8) (type major minor : BitVec 16) :
    Prog ℤ := do
  let r ← create cwd path type major minor
  match r with
  | none => return -1
  | some ip => do
    iunlockput ip
    return 0

def sysMknod (cwd : Option Ptr) (pathname : Option (List UInt8)) (beyond : List UInt8)
    (major minor : BitVec 16) : Prog ℤ :=
  match pathname with
  | none => return -1
  | some pathname => createAndPut cwd (pathArray pathname beyond) tDevice major minor

def sysMkdir (cwd : Option Ptr) (pt : Option (List UInt8)) : Prog ℤ :=
  match pt with
  | none => return -1
  | some pt =>
    if maxpath - 1 < pt.length then return -enametoolong
    else createAndPut cwd pt tDir 0 0

/-- `__sys_chdir`: the result and the new `cwd`. -/
def sysChdir (cwd : Option Ptr) (path : Option (List UInt8)) : Prog (ℤ × Option Ptr) :=
  match path with
  | none => return (-einval, cwd)
  | some path => do
    let r ← namei cwd path
    match r with
    | none => throw .ilock
    | some ip => do
      ilock ip
      let s ← get
      if (s.inode ip).type ≠ tDir then do
        iunlock ip
        return (-enoent, cwd)
      else do
        iunlock ip
        match cwd with
        | none => throw .nullPointer
        | some old => do
          iput old
          return (0, some ip)

/-- `isdirempty`, from `off` on -/
def isdiremptyLoop (dp : Ptr) : ℕ → ℕ → Prog Bool
  | 0, _ => return true
  | n + 1, off => do
    let de ← readDirent dp off .isdirempty
    if direntInum de ≠ 0 then return false else isdiremptyLoop dp n (off + direntSize)

def isdirempty (dp : Ptr) : Prog Bool := do
  let s ← get
  isdiremptyLoop dp (direntRounds s dp - 2) (2 * direntSize)

/-- `bad:` of `__sys_unlink` -/
def unlinkBad (dp : Ptr) : Prog ℤ := do
  iunlockput dp
  return -1

/-- `__sys_unlink` once the entry may go. -/
def unlinkEntry (dp ip : Ptr) (off : ℕ) : Prog ℤ := do
  writeDirent dp [] off .unlinkWritei
  let s ← get
  (if (s.inode ip).type = tDir then putInode dp fun dp => { dp with nlink := dp.nlink - 1 }
    else pure ())
  iunlock dp
  putInode ip fun ip => { ip with nlink := ip.nlink - 1 }
  iunlockput ip
  return 0

/-- `__sys_unlink` of an inode that is locked -/
def unlinkInode (dp ip : Ptr) (off : ℕ) : Prog ℤ := do
  let s ← get
  require (1 ≤ (s.inode ip).nlink.toInt) .unlinkNlink
  if (s.inode ip).type = tDir then do
    let empty ← isdirempty ip
    if empty then unlinkEntry dp ip off
    else do
      iunlockput ip
      unlinkBad dp
  else unlinkEntry dp ip off

def sysUnlink (cwd : Option Ptr) (path : Option (List UInt8)) : Prog ℤ :=
  match path with
  | none => return -einval
  | some path => do
    let r ← nameiparent cwd path
    match r with
    | none => return -1
    | some (dp, name) => do
      ilock dp
      if nameEq name dot ∨ nameEq name dotdot then unlinkBad dp
      else do
        let found ← dirlookup dp name
        match found with
        | none => unlinkBad dp
        | some (ip, off) => do
          ilock ip
          unlinkInode dp ip off

/-- `bad:` of `__sys_link` -/
def linkBad (ip : Ptr) : Prog ℤ := do
  ilock ip
  putInode ip fun ip => { ip with nlink := ip.nlink - 1 }
  iunlockput ip
  return -1

/-- `__sys_link` in the directory of the new name -/
def linkEntry (dp ip : Ptr) (name : List UInt8) : Prog ℤ := do
  ilock dp
  let s ← get
  if (s.inode dp).dev ≠ (s.inode ip).dev then do
    iunlockput dp
    linkBad ip
  else do
    let r ← dirlink dp name (s.inode ip).inum
    if r < 0 then do
      iunlockput dp
      linkBad ip
    else do
      iunlockput dp
      iput ip
      return 0

def sysLink (cwd : Option Ptr) (old new : Option (List UInt8)) : Prog ℤ :=
  match old, new with
  | some old, some new => do
    let r ← namei cwd old
    match r with
    | none => return -1
    | some ip => do
      ilock ip
      let s ← get
      if (s.inode ip).type = tDir then do
        iunlockput ip
        return -1
      else do
        putInode ip fun ip => { ip with nlink := ip.nlink + 1 }
        iunlock ip
        let r ← nameiparent cwd new
        match r with
        | none => linkBad ip
        | some (dp, name) => linkEntry dp ip name
  | _, _ => return -einval

end RiscvBm.Fs
