import SimOs.Common
import SimOs.Lib.Transition
import SimOs.Sched.Mlq
import Mathlib.Data.Fin.Basic

/-!
# The loader and the CPUs

`os.c` starts one thread for the loader and one for each CPU.  They meet in the
scheduler, whose functions run under `queue_lock`, and in the flag `done`.  A step
of the system is one critical section of one thread, or one of its local tests, so
a run is an interleaving.  The time slots are left out: `next_slot` may return at any
time, which allows more interleavings than the timer does.

A process is its index in `ld_processes`: `load` creates one control block for each
entry.  What its instructions do to memory and devices is a parameter `exec`, and
the return code of `run` is left out, since `cpu_routine` ignores it.

`put_proc` is two critical sections, so it has two lines.  While `get_proc` runs, the
local variable `proc` still holds the old value, a process that has been put back
or freed; it is not this CPU's process any more, see `Cpu.current`.

## Main definitions

* `Config`: what `read_config` reads.
* `World`: the state of all threads, with the record of what was executed.
* `run`, `cpuStep`, `ldStep`: `run`, `cpu_routine` and `ld_routine`.
* `osSystem`: all interleavings.
* `LineStep`, `LdStep`: what the steps can do, line by line.
-/

namespace SimOs.Os

open SimOs.Sched

universe u
variable {μ : Type u}

/-- An entry of `ld_processes`: the priority, and the code at the path. -/
structure LdProcess where
  prio : ℕ
  code : List InsT

/-- The configuration of a simulation. -/
structure Config (μ : Type u) where
  /-- `time_slot`. -/
  timeSlot : ℤ
  /-- `num_cpus`. -/
  numCpus : ℕ
  /-- `ld_processes`, of which `num_processes` is the length. -/
  ldProcesses : List LdProcess
  /-- The effect of an instruction of a process on memory; `none` if undefined. -/
  exec : ℕ → InsT → μ → Option μ

/-- The instructions of process `p`: `code->text`. -/
def Config.code (cfg : Config μ) (p : ℕ) : List InsT :=
  (cfg.ldProcesses[p]?).elim [] LdProcess.code

/-- The field `prio` of process `p`. -/
def Config.prio (cfg : Config μ) (p : ℕ) : ℕ :=
  (cfg.ldProcesses[p]?).elim 0 LdProcess.prio

/-- Where a CPU is in `cpu_routine`. -/
inductive CpuLine
  /-- The status of the current process, at the head of the loop. -/
  | head
  /-- `get_proc` when no process is running. -/
  | load
  /-- The first critical section of `put_proc`. -/
  | putRunning
  /-- The second critical section of `put_proc`. -/
  | putReady
  /-- `get_proc` after the last process finished or was put back. -/
  | reload
  /-- The recheck after loading. -/
  | check
  /-- `run(proc)`. -/
  | run
  /-- `next_slot`. -/
  | slot
  /-- `detach_event`, past the loop. -/
  | detach
  /-- The thread has exited. -/
  | exited
  deriving DecidableEq

/-- The local state of `cpu_routine`. -/
structure Cpu where
  line : CpuLine
  proc : Option ℕ
  timeLeft : ℤ
  deriving DecidableEq

/-- The process a CPU holds.  During `get_proc` the variable `proc` is about to be
overwritten and what it holds was given away. -/
def Cpu.current (c : Cpu) : Option ℕ :=
  match c.line with
  | .load => none
  | .reload => none
  | _ => c.proc

/-- Where the loader is in `ld_routine`. -/
inductive LdLine
  /-- The test of the loop. -/
  | head
  /-- Loaded, waiting for the start time. -/
  | wait
  /-- The first critical section of `add_proc`. -/
  | addRunning
  /-- The second critical section of `add_proc`. -/
  | addReady
  /-- `next_slot`. -/
  | slot
  /-- `detach_event`, past the loop. -/
  | detach
  /-- The thread has exited. -/
  | exited
  deriving DecidableEq

/-- The local state of `ld_routine`. -/
structure Loader where
  line : LdLine
  /-- The loop variable `i`. -/
  i : ℕ
  deriving DecidableEq

/-- The state of the system. -/
structure World (μ : Type u) (n : ℕ) where
  /-- The globals of `sched.c`. -/
  sched : Sched ℕ
  /-- The field `pc` of every process. -/
  pc : ℕ → ℕ
  /-- What the instructions work on. -/
  mem : μ
  /-- `done`. -/
  done : Bool
  /-- The CPU threads. -/
  cpu : Fin n → Cpu
  /-- The loader thread. -/
  ld : Loader
  /-- The instructions executed so far, by process.  Not part of the program. -/
  executed : ℕ → List InsT
  /-- The processes reported as finished, in order.  Not part of the program. -/
  finished : List ℕ

/-- Who makes a step. -/
inductive Label (n : ℕ)
  | cpu (i : Fin n)
  | loader
  /-- The start time of the next process has not come. -/
  | loaderWait
  deriving DecidableEq

namespace World
variable {n : ℕ}

/-- Set the local state of CPU `i`. -/
def setCpu (w : World μ n) (i : Fin n) (c : Cpu) : World μ n :=
  { w with cpu := Function.update w.cpu i c }

/-- Report process `p` as finished. -/
def report (w : World μ n) (p : ℕ) : World μ n := { w with finished := w.finished ++ [p] }

/-- Set the scheduler. -/
def setSched (w : World μ n) (s : Sched ℕ) : World μ n := { w with sched := s }

@[simp] theorem sched_setCpu (w : World μ n) (i : Fin n) (c : Cpu) :
    (w.setCpu i c).sched = w.sched := rfl
@[simp] theorem cpu_setCpu_self (w : World μ n) (i : Fin n) (c : Cpu) :
    (w.setCpu i c).cpu i = c := Function.update_self ..
@[simp] theorem cpu_setCpu_of_ne (w : World μ n) {i j : Fin n} (h : j ≠ i) (c : Cpu) :
    (w.setCpu i c).cpu j = w.cpu j := Function.update_of_ne h ..

@[simp] theorem sched_setSched (w : World μ n) (s : Sched ℕ) : (w.setSched s).sched = s := rfl
@[simp] theorem cpu_setSched (w : World μ n) (s : Sched ℕ) : (w.setSched s).cpu = w.cpu := rfl

end World

section Steps
variable (cfg : Config μ) {n : ℕ}

/-- `run`: execute the instruction at `pc`, if there is one.  There is no step for a
`killall`. -/
def run (w : World μ n) (p : ℕ) : Option (World μ n) :=
  match (cfg.code p)[w.pc p]? with
  | none => some w
  | some ins =>
      if ins.IsKillall then none
      else (cfg.exec p ins w.mem).map fun mem =>
        { w with
          pc := Function.update w.pc p (w.pc p + 1)
          mem := mem
          executed := Function.update w.executed p (w.executed p ++ [ins]) }

/-- One step of `cpu_routine` on CPU `i`. -/
def cpuStep (w : World μ n) (i : Fin n) : Option (World μ n) :=
  let c := w.cpu i
  match c.line with
  | .head =>
      match c.proc with
      | none => some (w.setCpu i { c with line := .load })
      | some p =>
          if w.pc p = (cfg.code p).length then
            some ((w.report p).setCpu i { c with line := .reload, timeLeft := 0 })
          else if c.timeLeft = 0 then some (w.setCpu i { c with line := .putRunning })
          else some (w.setCpu i { c with line := .check })
  | .load =>
      let r := getProc cfg.prio w.sched
      some ((w.setSched r.2).setCpu i
        { c with line := if r.1.isNone then .slot else .check, proc := r.1 })
  | .putRunning =>
      c.proc.map fun p =>
        (w.setSched (w.sched.enlistRunning p)).setCpu i { c with line := .putReady }
  | .putReady =>
      c.proc.bind fun p => (putMlqProc cfg.prio w.sched p).map fun s =>
        (w.setSched s).setCpu i { c with line := .reload }
  | .reload =>
      let r := getProc cfg.prio w.sched
      some ((w.setSched r.2).setCpu i { c with line := .check, proc := r.1 })
  | .check =>
      match c.proc with
      | none => some (w.setCpu i { c with line := if w.done then .detach else .slot })
      | some _ =>
          some (w.setCpu i { c with
            line := .run
            timeLeft := if c.timeLeft = 0 then cfg.timeSlot else c.timeLeft })
  | .run =>
      c.proc.bind fun p => (run cfg w p).map fun v =>
        v.setCpu i { c with line := .slot, timeLeft := c.timeLeft - 1 }
  | .slot => some (w.setCpu i { c with line := .head })
  | .detach => some (w.setCpu i { c with line := .exited })
  | .exited => none

/-- One step of `ld_routine`. -/
def ldStep (w : World μ n) : Option (World μ n) :=
  match w.ld.line with
  | .head =>
      if w.ld.i < cfg.ldProcesses.length then some { w with ld := ⟨.wait, w.ld.i⟩ }
      else some { w with ld := ⟨.detach, w.ld.i⟩, done := true }
  | .wait => some { w with ld := ⟨.addRunning, w.ld.i⟩ }
  | .addRunning =>
      some { w.setSched (w.sched.enlistRunning w.ld.i) with ld := ⟨.addReady, w.ld.i⟩ }
  | .addReady =>
      (addMlqProc cfg.prio w.sched w.ld.i).map fun s =>
        { w.setSched s with ld := ⟨.slot, w.ld.i + 1⟩ }
  | .slot => some { w with ld := ⟨.head, w.ld.i⟩ }
  | .detach => some { w with ld := ⟨.exited, w.ld.i⟩ }
  | .exited => none

/-- One step of the system. -/
def osStep (w : World μ n) : Label n → Option (World μ n)
  | .cpu i => cpuStep cfg w i
  | .loader => ldStep cfg w
  | .loaderWait => if w.ld.line = .wait then some w else none

/-- The state before the threads start, over the memory `mem`. -/
def World.init (n : ℕ) (mem : μ) : World μ n where
  sched := initScheduler
  pc _ := 0
  mem := mem
  done := false
  cpu _ := ⟨.head, none, 0⟩
  ld := ⟨.head, 0⟩
  executed _ := []
  finished := []

/-- All interleavings of the loader and the CPUs. -/
def osSystem : Lts (World μ cfg.numCpus) (Label cfg.numCpus) where
  init w := ∃ mem, w = World.init cfg.numCpus mem
  step := osStep cfg

end Steps

/-! ## The lines of the routines -/

section Lines
variable {cfg : Config μ} {n : ℕ}

/-- The steps of CPU `i`, line by line, from its local state. -/
inductive LineStep (cfg : Config μ) (w : World μ n) (i : Fin n) : Cpu → World μ n → Prop
  | headEmpty (t : ℤ) : LineStep cfg w i ⟨.head, none, t⟩ (w.setCpu i ⟨.load, none, t⟩)
  | headFinished (p : ℕ) (t : ℤ) (hpc : w.pc p = (cfg.code p).length) :
      LineStep cfg w i ⟨.head, some p, t⟩ ((w.report p).setCpu i ⟨.reload, some p, 0⟩)
  | headOver (p : ℕ) (hpc : w.pc p ≠ (cfg.code p).length) :
      LineStep cfg w i ⟨.head, some p, 0⟩ (w.setCpu i ⟨.putRunning, some p, 0⟩)
  | headOn (p : ℕ) (t : ℤ) (hpc : w.pc p ≠ (cfg.code p).length) (ht : t ≠ 0) :
      LineStep cfg w i ⟨.head, some p, t⟩ (w.setCpu i ⟨.check, some p, t⟩)
  | load (proc : Option ℕ) (t : ℤ) :
      LineStep cfg w i ⟨.load, proc, t⟩ ((w.setSched (getProc cfg.prio w.sched).2).setCpu i
        ⟨if (getProc cfg.prio w.sched).1.isNone then .slot else .check,
          (getProc cfg.prio w.sched).1, t⟩)
  | putRunning (p : ℕ) (t : ℤ) :
      LineStep cfg w i ⟨.putRunning, some p, t⟩
        ((w.setSched (w.sched.enlistRunning p)).setCpu i ⟨.putReady, some p, t⟩)
  | putReady (p : ℕ) (t : ℤ) (s : Sched ℕ) (hs : putMlqProc cfg.prio w.sched p = some s) :
      LineStep cfg w i ⟨.putReady, some p, t⟩ ((w.setSched s).setCpu i ⟨.reload, some p, t⟩)
  | reload (proc : Option ℕ) (t : ℤ) :
      LineStep cfg w i ⟨.reload, proc, t⟩ ((w.setSched (getProc cfg.prio w.sched).2).setCpu i
        ⟨.check, (getProc cfg.prio w.sched).1, t⟩)
  | checkEmpty (t : ℤ) :
      LineStep cfg w i ⟨.check, none, t⟩
        (w.setCpu i ⟨if w.done then .detach else .slot, none, t⟩)
  | check (p : ℕ) (t : ℤ) :
      LineStep cfg w i ⟨.check, some p, t⟩
        (w.setCpu i ⟨.run, some p, if t = 0 then cfg.timeSlot else t⟩)
  | run (p : ℕ) (t : ℤ) (v : World μ n) (hv : run cfg w p = some v) :
      LineStep cfg w i ⟨.run, some p, t⟩ (v.setCpu i ⟨.slot, some p, t - 1⟩)
  | slot (proc : Option ℕ) (t : ℤ) :
      LineStep cfg w i ⟨.slot, proc, t⟩ (w.setCpu i ⟨.head, proc, t⟩)
  | detach (proc : Option ℕ) (t : ℤ) :
      LineStep cfg w i ⟨.detach, proc, t⟩ (w.setCpu i ⟨.exited, proc, t⟩)

/-- **What a step of a CPU does**, line by line. -/
theorem cpuStep_lines {w v : World μ n} {i : Fin n} (h : cpuStep cfg w i = some v) :
    LineStep cfg w i (w.cpu i) v := by
  rw [cpuStep] at h
  generalize w.cpu i = c at h ⊢
  obtain ⟨line, proc, t⟩ := c
  cases line with
  | head =>
      cases proc with
      | none =>
          obtain rfl := Option.some.inj h
          exact .headEmpty t
      | some p =>
          simp only at h
          split at h
          · next hpc =>
              obtain rfl := Option.some.inj h
              exact .headFinished p t hpc
          · next hpc =>
              split at h
              · next hover =>
                  obtain rfl := Option.some.inj h
                  subst hover
                  exact .headOver p hpc
              · next hon =>
                  obtain rfl := Option.some.inj h
                  exact .headOn p t hpc hon
  | load =>
      obtain rfl := Option.some.inj h
      exact .load proc t
  | putRunning =>
      obtain ⟨p, rfl, rfl⟩ := Option.map_eq_some_iff.mp h
      exact .putRunning p t
  | putReady =>
      obtain ⟨p, rfl, hput⟩ := Option.bind_eq_some_iff.mp h
      obtain ⟨s, hs, rfl⟩ := Option.map_eq_some_iff.mp hput
      exact .putReady p t s hs
  | reload =>
      obtain rfl := Option.some.inj h
      exact .reload proc t
  | check =>
      cases proc with
      | none =>
          obtain rfl := Option.some.inj h
          exact .checkEmpty t
      | some p =>
          obtain rfl := Option.some.inj h
          exact .check p t
  | run =>
      obtain ⟨p, rfl, hrun⟩ := Option.bind_eq_some_iff.mp h
      obtain ⟨v, hv, rfl⟩ := Option.map_eq_some_iff.mp hrun
      exact .run p t v hv
  | slot =>
      obtain rfl := Option.some.inj h
      exact .slot proc t
  | detach =>
      obtain rfl := Option.some.inj h
      exact .detach proc t
  | exited => cases h

/-- The steps of the loader, line by line. -/
inductive LdStep (cfg : Config μ) (w : World μ n) : LdLine → World μ n → Prop
  | next (hlt : w.ld.i < cfg.ldProcesses.length) :
      LdStep cfg w .head { w with ld := ⟨.wait, w.ld.i⟩ }
  | done (hge : ¬ w.ld.i < cfg.ldProcesses.length) :
      LdStep cfg w .head { w with ld := ⟨.detach, w.ld.i⟩, done := true }
  | wait : LdStep cfg w .wait { w with ld := ⟨.addRunning, w.ld.i⟩ }
  | addRunning :
      LdStep cfg w .addRunning
        { w.setSched (w.sched.enlistRunning w.ld.i) with ld := ⟨.addReady, w.ld.i⟩ }
  | addReady (s : Sched ℕ) (hs : addMlqProc cfg.prio w.sched w.ld.i = some s) :
      LdStep cfg w .addReady { w.setSched s with ld := ⟨.slot, w.ld.i + 1⟩ }
  | slot : LdStep cfg w .slot { w with ld := ⟨.head, w.ld.i⟩ }
  | detach : LdStep cfg w .detach { w with ld := ⟨.exited, w.ld.i⟩ }

/-- **What a step of the loader does**, line by line. -/
theorem ldStep_lines {w v : World μ n} (h : ldStep cfg w = some v) :
    LdStep cfg w w.ld.line v := by
  rw [ldStep] at h
  generalize w.ld.line = line at h ⊢
  cases line with
  | head =>
      simp only at h
      split at h
      · next hlt =>
          obtain rfl := Option.some.inj h
          exact .next hlt
      · next hge =>
          obtain rfl := Option.some.inj h
          exact .done hge
  | wait =>
      obtain rfl := Option.some.inj h
      exact .wait
  | addRunning =>
      obtain rfl := Option.some.inj h
      exact .addRunning
  | addReady =>
      obtain ⟨s, hs, rfl⟩ := Option.map_eq_some_iff.mp h
      exact .addReady s hs
  | slot =>
      obtain rfl := Option.some.inj h
      exact .slot
  | detach =>
      obtain rfl := Option.some.inj h
      exact .detach
  | exited => cases h

/-- Waiting for a start time changes nothing. -/
theorem osStep_loaderWait {w v : World μ n} (h : osStep cfg w .loaderWait = some v) : v = w := by
  rw [osStep] at h
  split at h
  · exact (Option.some.inj h).symm
  · cases h

end Lines

end SimOs.Os
