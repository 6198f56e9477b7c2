import RiscvBm.Vm.ArgStack

/-!
# When `exec` fails (`kernel/exec.c`)

`exec` puts the inode before it builds the stack and goes on with the pointer: every `goto bad` up
to the second lookup unlocks an inode that is not locked. After that the label does its work, but
the registers and the name of the process are those of the new program by then (`Renamed`), and
nothing gives the old ones back.
-/

namespace RiscvBm.Exec

open Vm Wp

/-! ## §1  A clean failure -/

/-- Nothing is left of the call: the log operations, the inode and its lock, and the areas, the
pages, the name and the registers of the process are as before. -/
structure Untouched (t t' : Task) : Prop where
  ops : t'.ops = t.ops
  refs : t'.refs = t.refs
  locked : t'.locked = t.locked
  mm : t'.st.mm = t.st.mm
  entries : ∀ a, translate t'.st.mem t.st.mm.pagetable a = translate t.st.mem t.st.mm.pagetable a
  bytes : ∀ a, UserPage t.st.mem t.st.mm.pagetable a →
    userByte t'.st.mem t.st.mm.pagetable a = userByte t.st.mem t.st.mm.pagetable a
  name : t'.name = t.name
  registers : t'.sp = t.sp ∧ t'.a1 = t.a1 ∧ t'.st.epc = t.st.epc

/-- `exec` returns -1, or panics in place of it: it unlocks an inode that it has not locked. -/
def Fails (w : World) (path : Option (List UInt8)) (argv : ℕ) (t : Task) : Prop :=
  exec w path argv t = .error .iunlock ∨ ∃ t', exec w path argv t = .ok (-1, t')

/-- No such panic, and where `exec` returns -1 nothing is left of the call. -/
def FailsCleanly (w : World) (path : Option (List UInt8)) (argv : ℕ) (t : Task) : Prop :=
  exec w path argv t ≠ .error .iunlock ∧
    ∀ t', exec w path argv t = .ok (-1, t') → Untouched t t'

/-! ## §2  The calls that fail -/

section Failures

variable {w : World} {path : Option (List UInt8)} {name : List UInt8} {argv : ℕ} {t : Task}

end Failures

end RiscvBm.Exec
