import RiscvBm.Fs.Dir
import RiscvBm.Lib.Transition

/-!
# Open files, processes and system calls (`kernel/file.c`, `kernel/sysfile.c`)

The state is the file system together with the file table and the descriptor
tables and current directories of the processes. One system call is one step;
a call that panics, or that runs into undefined behaviour, is no step at all.

Processes are numbered in the order in which `fork` makes them. Pipes, sockets
and devices have no state here: what they answer is an argument of the call.
-/

namespace RiscvBm.SysFile

open Fs (Ptr Panic Src)
open Bio (bsize)
open Wp Function

/-! ## §1  State -/

/-- `struct file` -/
structure File where
  type : FdType
  ref : ℤ
  readable : Bool
  writable : Bool
  ip : Option Ptr
  off : ℕ
  major : BitVec 16

instance : Inhabited File := ⟨⟨.none, 0, false, false, none, 0, 0⟩⟩

/-- A pointer to an entry of `ftable`. -/
abbrev FilePtr := Fin nfile

structure Task where
  /-- the process has not exited -/
  alive : Bool
  ofile : Fin nofile → Option FilePtr
  cwd : Option Ptr

instance : Inhabited Task := ⟨⟨false, fun _ => none, none⟩⟩

structure St where
  fs : Fs.St
  file : FilePtr → File
  ntask : ℕ
  task : ℕ → Task

abbrev Prog := Wp.Prog St Panic

def fsPart : Part St Fs.St := ⟨St.fs, fun s fs => { s with fs := fs }⟩

/-- Run a function of the file system. -/
def onFs {α : Type} (c : Fs.Prog α) : Prog α := zoom fsPart c

def setFile (s : St) (f : FilePtr) (x : File) : St := { s with file := update s.file f x }

def setTask (s : St) (pid : ℕ) (t : Task) : St := { s with task := update s.task pid t }

/-- `current->ofile[fd] = f` -/
def setFd (s : St) (pid : ℕ) (fd : Fin nofile) (f : Option FilePtr) : St :=
  setTask s pid { s.task pid with ofile := update (s.task pid).ofile fd f }

/-! ## §2  The file table -/

def filealloc : Prog (Option FilePtr) := do
  let s ← get
  match (List.finRange nfile).find? fun f => (s.file f).ref = 0 with
  | none => return none
  | some f => do
    modify fun s => setFile s f { s.file f with ref := 1 }
    return some f

/-- The rest of `fileclose` for the last reference; `ff` is the copy of the entry. -/
def closeLast (ff : File) : Prog Unit :=
  match ff.type, ff.ip with
  | .inode, some ip => onFs (Fs.iput ip)
  | .inode, none => throw .nullPointer
  | _, _ => return

def fileclose (f : FilePtr) : Prog Unit := do
  let s ← get
  require (1 ≤ (s.file f).ref) .fileclose
  if 0 < (s.file f).ref - 1 then
    modify fun s => setFile s f { s.file f with ref := (s.file f).ref - 1 }
  else do
    modify fun s => setFile s f { s.file f with ref := 0, type := .none }
    closeLast (s.file f)

def filedup (f : FilePtr) : Prog Unit := do
  let s ← get
  require (1 ≤ (s.file f).ref) .filedup
  modify fun s => setFile s f { s.file f with ref := (s.file f).ref + 1 }

/-- `((MAXOPBLOCKS-1-1-2) / 2) * BSIZE` -/
def maxWrite : ℕ := (maxopblocks - 1 - 1 - 2) / 2 * bsize

/-- `writei` of `n` bytes at `f->off` by `filewrite` -/
def writeOnce (f : FilePtr) (ip : Ptr) (src : Src) (n : ℕ) : Prog ℤ := do
  let s ← get
  let r ← onFs (do
    Fs.ilock ip
    let r ← Fs.writei ip src (s.file f).off n
    Fs.iunlock ip
    return r)
  modify fun s => if 0 < r then
    setFile s f { s.file f with off := ((s.file f).off + r.toNat) % 2 ^ 32 } else s
  return r

/-- The loop of `filewrite`: `i` bytes are written. A round writes at least one
byte, so `n` rounds are enough. -/
def filewriteLoop (f : FilePtr) (ip : Ptr) (src : Src) (n : ℕ) : ℕ → ℕ → Prog ℕ
  | 0, i => return i
  | fuel + 1, i =>
    if i < n then do
      let n1 := min (n - i) maxWrite
      let r ← writeOnce f ip (fun j => src (i + j)) n1
      if r = n1 then filewriteLoop f ip src n fuel (i + n1) else return i
    else return i

/-- `filewrite`; `other` is what a device, a pipe or a socket returns. -/
def filewrite (f : FilePtr) (src : Src) (n : ℕ) (other : ℤ) : Prog ℤ := do
  let s ← get
  if !(s.file f).writable then return -1
  else match (s.file f).type, (s.file f).ip with
    | .inode, some ip => do
      let i ← filewriteLoop f ip src n n 0
      return if i = n then (n : ℤ) else -1
    | .inode, none => throw .nullPointer
    | _, _ => return other

/-! ## §3  Descriptors -/

def fdalloc (pid : ℕ) (f : Option FilePtr) : Prog (Option (Fin nofile)) := do
  let s ← get
  match (List.finRange nofile).find? fun fd => (s.task pid).ofile fd = none with
  | none => return none
  | some fd => do
    modify fun s => setFd s pid fd f
    return some fd

/-- A descriptor inside the bounds of `ofile`. -/
def fdIndex (fd : ℤ) : Option (Fin nofile) :=
  if h : 0 ≤ fd ∧ fd.toNat < nofile then some ⟨fd.toNat, h.2⟩ else none

/-- `current->ofile[fd]` -/
def descriptor (pid : ℕ) (fd : ℤ) : Prog (Fin nofile × Option FilePtr) := do
  let s ← get
  match fdIndex fd with
  | some fd => return (fd, (s.task pid).ofile fd)
  | none => throw .badDescriptor

def sysClose (pid : ℕ) (fd : ℤ) : Prog ℤ := do
  let (fd, f) ← descriptor pid fd
  match f with
  | none => return -1
  | some f => do
    modify fun s => setFd s pid fd none
    fileclose f
    return 0

def sysDup (pid : ℕ) (oldfd : ℤ) : Prog ℤ := do
  let (_, f) ← descriptor pid oldfd
  let newfd ← fdalloc pid f
  match newfd, f with
  | none, _ => return -1
  | some _, none => throw .nullPointer
  | some newfd, some f => do
    filedup f
    return newfd.val

def sysWrite (pid : ℕ) (fd : ℤ) (buf : Option Src) (count : ℤ) (other : ℤ) : Prog ℤ := do
  let (_, f) ← descriptor pid fd
  match buf, f with
  | some src, some f => if count < 0 then return -1 else filewrite f src count.toNat other
  | _, _ => return -1

/-- `iunlockput(ip); log_end_op(); return -1;` -/
def openFail (ip : Ptr) : Prog ℤ := do
  onFs (Fs.iunlockput ip)
  return -1

/-- The fields of `*f` that `__sys_open` sets for the inode `ip`. -/
def File.opened (x : File) (ip : Ptr) (inode : Fs.Inode) (omode : BitVec 32) : File :=
  let x := { x with
    ip := some ip
    readable := omode &&& Fs.oWronly = 0
    writable := omode &&& Fs.oWronly ≠ 0 ∨ omode &&& Fs.oRdwr ≠ 0 }
  if inode.type = Fs.tDevice then { x with type := .device, major := inode.major }
  else { x with type := .inode, off := 0 }

/-- `if((omode & O_TRUNC) && ip->type == T_FILE) itrunc(ip);` and `iunlock(ip);` -/
def truncUnlock (ip : Ptr) (omode : BitVec 32) : Fs.Prog Unit := do
  let s ← get
  (if omode &&& Fs.oTrunc ≠ 0 ∧ (s.inode ip).type = Fs.tFile then Fs.itrunc ip else pure ())
  Fs.iunlock ip

/-- The last part of `__sys_open`: `f` gets the inode `ip`. -/
def openFile (f : FilePtr) (fd : Fin nofile) (ip : Ptr) (omode : BitVec 32) : Prog ℤ := do
  modify fun s => setFile s f ((s.file f).opened ip (s.fs.inode ip) omode)
  onFs (truncUnlock ip omode)
  return fd.val

/-- `__sys_open` with the locked inode `ip`. -/
def openLocked (pid : ℕ) (ip : Ptr) (omode : BitVec 32) : Prog ℤ := do
  let s ← get
  let inode := s.fs.inode ip
  if inode.type = Fs.tDevice ∧ (inode.major.toInt < 0 ∨ (ndev : ℤ) ≤ inode.major.toInt) then
    openFail ip
  else do
    let f ← filealloc
    match f with
    | none => openFail ip
    | some f => do
      let fd ← fdalloc pid (some f)
      match fd with
      | none => do
        fileclose f
        openFail ip
      | some fd => openFile f fd ip omode

def sysOpen (pid : ℕ) (pathname : Option (List UInt8)) (beyond : List UInt8)
    (omode : BitVec 32) : Prog ℤ :=
  match pathname with
  | none => return -1
  | some pathname =>
    if maxpath < pathname.length then return -1
    else do
      let s ← get
      let ip ← onFs (Fs.openInode (s.task pid).cwd (Fs.pathArray pathname beyond) omode)
      match ip with
      | none => return -1
      | some ip => openLocked pid ip omode

/-! ## §4  Processes -/

def sysChdir (pid : ℕ) (path : Option (List UInt8)) : Prog ℤ := do
  let s ← get
  let (r, cwd) ← onFs (Fs.sysChdir (s.task pid).cwd path)
  modify fun s => setTask s pid { s.task pid with cwd := cwd }
  return r

/-- `if(current->ofile[i]) p->ofile[i] = filedup(current->ofile[i]);` -/
def dupFd (pid : ℕ) (i : Fin nofile) : Prog Unit := do
  let s ← get
  match (s.task pid).ofile i with
  | none => return
  | some f => filedup f

/-- `fork`: the part of `copy_process` that concerns files. Without memory or a
process number (`granted` is false) it fails before that. -/
def sysFork (pid : ℕ) (granted : Bool) : Prog ℤ := do
  if granted then do
    forEach (dupFd pid) (List.finRange nofile)
    let s ← get
    match (s.task pid).cwd with
    | none => throw .nullPointer
    | some cwd => do
      let cwd ← onFs (Fs.idup cwd)
      modify fun s => { setTask s s.ntask { s.task pid with cwd := some cwd } with
        ntask := s.ntask + 1 }
      return s.ntask
  else return -1

/-- `if(current->ofile[fd]){ fileclose(current->ofile[fd]); current->ofile[fd] = 0; }` -/
def exitFd (pid : ℕ) (fd : Fin nofile) : Prog Unit := do
  let s ← get
  match (s.task pid).ofile fd with
  | none => return
  | some f => do
    fileclose f
    modify fun s => setFd s pid fd none

def doExit (pid : ℕ) : Prog ℤ := do
  forEach (exitFd pid) (List.finRange nofile)
  let s ← get
  (match (s.task pid).cwd with
    | none => pure ()
    | some cwd => onFs (Fs.iput cwd))
  modify fun s => setTask s pid { s.task pid with alive := false }
  return 0

/-! ## §5  Steps -/

inductive Call where
  | open (pathname : Option (List UInt8)) (beyond : List UInt8) (omode : BitVec 32)
  | close (fd : ℤ)
  | dup (oldfd : ℤ)
  | fork (granted : Bool)
  | exit
  | chdir (path : Option (List UInt8))
  | mkdir (path : Option (List UInt8))
  | mknod (pathname : Option (List UInt8)) (beyond : List UInt8) (major minor : BitVec 16)
  | link (old new : Option (List UInt8))
  | unlink (path : Option (List UInt8))
  | write (fd : ℤ) (buf : Option Src) (count other : ℤ)

/-- What a call does, with its result. -/
def run (pid : ℕ) : Call → Prog ℤ
  | .open pathname beyond omode => sysOpen pid pathname beyond omode
  | .close fd => sysClose pid fd
  | .dup oldfd => sysDup pid oldfd
  | .fork granted => sysFork pid granted
  | .exit => doExit pid
  | .chdir path => sysChdir pid path
  | .mkdir path => do
    let s ← get
    onFs (Fs.sysMkdir (s.task pid).cwd path)
  | .mknod pathname beyond major minor => do
    let s ← get
    onFs (Fs.sysMknod (s.task pid).cwd pathname beyond major minor)
  | .link old new => do
    let s ← get
    onFs (Fs.sysLink (s.task pid).cwd old new)
  | .unlink path => do
    let s ← get
    onFs (Fs.sysUnlink (s.task pid).cwd path)
  | .write fd buf count other => sysWrite pid fd buf count other

/-- A call by the process `pid`. -/
structure Act where
  pid : ℕ
  call : Call

def Running (s : St) (pid : ℕ) : Prop := pid < s.ntask ∧ (s.task pid).alive

instance (s : St) (pid : ℕ) : Decidable (Running s pid) :=
  inferInstanceAs (Decidable (_ ∧ _))

def step (s : St) (a : Act) : Option St :=
  if Running s a.pid then
    match run a.pid a.call s with
    | .ok (_, s') => some s'
    | .error _ => none
  else none

/-- `iinit`, `fsinit` and `fileinit`, and `current->cwd = namei("/")` of the first
process. -/
def boot (disk : ℕ → Bio.Data) : Except Panic St :=
  let sb := Fs.readsb (disk 1)
  if sb.magic = Fs.fsmagic then
    match Fs.namei none [Fs.slash] { sb := sb, disk := disk, inode := fun _ => default } with
    | .ok (cwd, fs) => .ok
        { fs := fs, file := fun _ => default, ntask := 1
          task := fun pid => if pid = 0 then ⟨true, fun _ => none, cwd⟩ else default }
    | .error e => .error e
  else .error .invalidFs

end RiscvBm.SysFile
