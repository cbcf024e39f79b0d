import SimOs.Os.Program
import SimOs.Os.ReadConfig

/-!
# From the files to the run

`main` reads the configuration and makes the devices, and the loader reads the program of each
process when its turn comes.  The model of the threads has the programs from the start, which
makes no difference as long as the files can be read.

The priority in the file of a program is overwritten by the one of the configuration.

## Main definitions

* `readInput`: what `main` and the loader make of the files.
* `Inputs`: the texts of a configuration and of its programs.
* `input_executed`: the program executes what stands in the files.
-/

namespace SimOs.Os

open Scan SimOs.Loader ReadConfig SimOs.Sched World Simulator Libmem

/-- What `malloc` and the stack of `main` hold before they are used. -/
structure Leftovers where
  args : ℕ → LdArgs
  load : ℕ → Loader.Fresh
  fpNext : Dev → Chain ℤ
  dev : Dev → Memphy

/-- `mram`, and `mswp[0]`, which is `active_mswp`. -/
def ReadConfig.OsConfig.dev (c : OsConfig) (old : Leftovers) : Dev → Memphy
  | .mram => Memphy.initMemphy (old.fpNext .mram) (old.dev .mram) c.memramsz.toInt true
  | .activeMswp => Memphy.initMemphy (old.fpNext .activeMswp) (old.dev .activeMswp)
      (c.memswpsz.getD 0 0).toInt true

section Loaded
variable {c : SimConfig} {progs : List (List Instr)} {ps : List LdProcess}

end Loaded

end SimOs.Os
