import Mathlib.Data.Nat.Notation

/-!
# Instructions, bytes and return codes

The instruction format of `common.h`, shared by the loader, the CPUs and `run`, and
what the memory functions have in common: bytes, and the convention to return 0 or
-1.

## Main definitions

* `InsOpcode`, `InsT`: an opcode and an instruction.
* `BYTE`, `Ret`: a byte, and the way a memory function returns.
-/

namespace SimOs

/-- `enum ins_opcode_t`. -/
inductive InsOpcode
  | calc
  | alloc
  | free
  | read
  | write
  | syscall
  deriving DecidableEq, Repr

/-- `struct inst_t`. -/
structure InsT where
  opcode : InsOpcode
  arg0 : BitVec 32
  arg1 : BitVec 32
  arg2 : BitVec 32
  arg3 : BitVec 32
  deriving DecidableEq, Repr

/-- The number of `killall` in `syscall.tbl`. -/
def sysKillall : BitVec 32 := 101

/-- A `killall` system call. -/
def InsT.IsKillall (ins : InsT) : Prop := ins.opcode = .syscall ∧ ins.arg0 = sysKillall

instance (ins : InsT) : Decidable ins.IsKillall := inferInstanceAs (Decidable (_ ∧ _))

/-- `BYTE` of `os-mm.h`. -/
abbrev BYTE : Type := BitVec 8

/-- How a memory function returns: 0, with the values it stores through its pointer
arguments, or -1. -/
inductive Ret (α : Type)
  | ok (a : α)
  | err
  deriving DecidableEq

/-- Return 0 with another value. -/
def Ret.map {α β : Type} (f : α → β) : Ret α → Ret β
  | ok a => ok (f a)
  | err => err

end SimOs
