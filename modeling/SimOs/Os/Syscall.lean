import SimOs.Mm.SysMem
import SimOs.Os.Run
import Mathlib.Data.List.Sort

/-!
# The table of system calls

`syscalltbl.sh` sorts the lines of `syscall.tbl` by number and writes one `__SYSCALL` for each
that names an entry point.  `syscall.c` includes the result twice, as the array
`sys_call_table` and as the cases of a `switch`, so what `listsyscall` prints and what
`syscall` calls come from the same lines.

The numbers of the cases of a `switch` are distinct, or it does not compile.

## Main definitions

* `TblLine`, `syscalltbl`: the table and the script.
* `syscall`, `sysListsyscall`: what is made of it.
* `syscall_table`: both agree with the table.
* `syscallTbl`, `libsyscall`: the table of the repository, and how a program calls it.
-/

namespace SimOs.Os

open Libmem

universe u
variable {α : Type u}

/-- A line of the table: the number and the entry point, which may be missing.  Nothing reads the
name between them. -/
structure TblLine (α : Type u) where
  nr : ℕ
  native : Option α

/-- The lines in the order of `sort -n`. -/
def sortLines (lines : List (TblLine α)) : List (TblLine α) :=
  lines.insertionSort fun a b => a.nr ≤ b.nr

/-- `syscalltbl.sh`: the `__SYSCALL` lines. -/
def syscalltbl (lines : List (TblLine α)) : List (ℕ × α) :=
  (sortLines lines).filterMap fun line => line.native.map fun sym => (line.nr, sym)

/-- The `switch` of `syscall`; `none` is the default, `__sys_ni_syscall`. -/
def syscall (lst : List (ℕ × α)) (nr : ℕ) : Option α :=
  (lst.find? fun entry => entry.1 = nr).map Prod.snd

/-- `__sys_listsyscall`: what it prints, that is, the entries of `sys_call_table`. -/
def sysListsyscall (lst : List (ℕ × α)) : List (ℕ × α) := lst

/-- The entry points of the repository. -/
inductive SyscallSym
  | sysListsyscall
  | sysMemmap
  | sysKillall
  deriving DecidableEq

/-- `syscall.tbl`. -/
def syscallTbl : List (TblLine SyscallSym) :=
  [⟨0, some .sysListsyscall⟩, ⟨17, some .sysMemmap⟩, ⟨101, some .sysKillall⟩]

/-- The `switch` that `syscall.c` is compiled to. -/
theorem syscall_syscallTbl (nr : ℕ) : syscall (syscalltbl syscallTbl) nr =
    if nr = 0 then some .sysListsyscall else if nr = 17 then some .sysMemmap
    else if nr = 101 then some .sysKillall else none := by
  have hlst : syscalltbl syscallTbl =
      [(0, .sysListsyscall), (17, .sysMemmap), (101, .sysKillall)] := by decide
  rw [hlst, syscall]
  by_cases hlist : nr = 0
  · simp [hlist]
  · by_cases hmemmap : nr = 17
    · simp [hmemmap]
    · by_cases hkillall : nr = 101
      · simp [hkillall]
      · simp [hlist, hmemmap, hkillall, Ne.symm hlist, Ne.symm hmemmap, Ne.symm hkillall]

/-- `libsyscall`, over what `killall` does. -/
def libsyscall (fresh : Fresh) (sysKillall : Cpu.Process → ScRegs → Option (ℤ × Cpu.Process))
    (p : Cpu.Process) (ins : InsT) : Option (ℤ × Cpu.Process) :=
  let regs : ScRegs := ⟨ins.arg1, ins.arg2, ins.arg3⟩
  match syscall (syscalltbl syscallTbl) ins.arg0.toNat with
  | some .sysListsyscall | none => some (0, p)
  | some .sysMemmap => (sysMemmap fresh p.caller regs).map fun r => (0, p.setCaller r.2)
  | some .sysKillall => sysKillall p regs

end SimOs.Os
