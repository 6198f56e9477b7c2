import Mathlib.Algebra.Group.Nat.Defs

/-!
# Constants of the kernel

The values of `kernel/param.h`, `kernel/file.h`, `kernel/fs.h`, `kernel/mm.h` and
`kernel/memlayout.h` that the modelled code reads.
-/

namespace RiscvBm

/-! ## `param.h` -/

/-- Open files per process. -/
def nofile : ℕ := 16
/-- Open files per system. -/
def nfile : ℕ := 100
/-- Maximum number of active inodes. -/
def ninode : ℕ := 50
def ndev : ℕ := 10
def rootdev : ℕ := 1
/-- Maximum number of blocks any file-system operation writes. -/
def maxopblocks : ℕ := 10
/-- Maximum number of data blocks in the on-disk log. -/
def logsize : ℕ := maxopblocks * 3
/-- Size of the disk block cache. -/
def nbuf : ℕ := maxopblocks * 3
def maxpath : ℕ := 128

/-! ## `file.h` -/

inductive FdType where
  | none
  | pipe
  | inode
  | device
  | sock
deriving DecidableEq, Repr

/-! ## `proc.h` -/

def maxPid : ℕ := 4096 * 8 - 1

/-! ## `mm.h` and `memlayout.h` -/

/-- Orders of free blocks run from 0 to `maxOrder - 1`. -/
def maxOrder : ℕ := 11
/-- Bytes in a page. -/
def pgsize : ℕ := 4096
def pgRoundDown (a : ℕ) : ℕ := a / pgsize * pgsize
def userCodeVmStart : ℕ := 0x1000000000
/-- Where the heap of a process starts. -/
def userMemStart : ℕ := 2 ^ 32 * 8 + userCodeVmStart

end RiscvBm
