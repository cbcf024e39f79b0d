import SimOs.Os.KillName
import SimOs.Os.KillQueues
import SimOs.Os.Program
import SimOs.Os.RunningList

/-!
# `killall` in the runs of the system

Here a `killall` is a step too.  It reads the name from memory, and no process of the system
ever has a page there, so the first read fails and the name is empty.  The last component of a
stored path is not, unless the path is cut off behind a slash.  So nothing is found.

`killall` takes no lock, and is taken as one step here.  It follows the pointers of the running
list, from which nothing removes a process that was freed.

## Main definitions

* `runKillall`, `killStep`, `killMachine`: the system.
* `InsT.withoutKill`, `World.withoutKills`: calculations in the place of the calls.
* `Named`: the condition on the names of the processes.
* `killall_harmless`: what the calls of a run do.
* `Registered`: the first process stays in the running list.
* `killall_after_free`: when no call is possible any more.
-/

namespace SimOs

/-- A calculation in the place of a `killall`. -/
def InsT.withoutKill (ins : InsT) : InsT :=
  if ins.IsKillall then { ins with opcode := .calc } else ins

theorem InsT.withoutKill_of_not {ins : InsT} (h : ¬ ins.IsKillall) : ins.withoutKill = ins :=
  if_neg h

theorem InsT.opcode_withoutKill {ins : InsT} (h : ins.IsKillall) :
    ins.withoutKill.opcode = .calc := by
  rw [withoutKill, if_pos h]

theorem InsT.not_isKillall_withoutKill (ins : InsT) : ¬ ins.withoutKill.IsKillall := by
  by_cases h : ins.IsKillall
  · intro hkill
    cases (opcode_withoutKill h).symm.trans hkill.1
  · rwa [withoutKill_of_not h]

end SimOs

namespace SimOs.Os

open SimOs.Sched World Libmem

universe u
variable {μ : Type u} {n : ℕ}

/-! ## The system -/

section System
variable (cfg : Config μ) (name : ℕ → List BYTE)

/-- The processes, their memory and the lists, as `killall` finds them. -/
def World.kernel (w : World (Shared ℕ) n) : Kernel where
  pcb p := { load (readConfigPath (name p)) (cfg.code p) with pc := w.pc p }
  mem := w.mem
  runningList := w.sched.runningList
  mlqReadyQueue := w.sched.mlqReadyQueue

/-- As it leaves them. -/
def World.setKernel (w : World (Shared ℕ) n) (k : Kernel) : World (Shared ℕ) n where
  sched := { w.sched with runningList := k.runningList, mlqReadyQueue := k.mlqReadyQueue }
  pc p := (k.pcb p).pc
  mem := k.mem
  done := w.done
  cpu := w.cpu
  ld := w.ld
  executed := w.executed
  finished := w.finished

/-- Past an instruction of process `p`. -/
def World.advance (w : World (Shared ℕ) n) (p : ℕ) (ins : InsT) : World (Shared ℕ) n :=
  { w with
    pc := Function.update w.pc p (w.pc p + 1)
    executed := Function.update w.executed p (w.executed p ++ [ins]) }

/-- No process in the running list was freed. -/
def World.Listed (w : World μ n) : Prop := ∀ p ∈ w.sched.runningList.proc, p ∉ w.finished

instance (w : World μ n) : Decidable w.Listed := inferInstanceAs (Decidable (∀ _ ∈ _, _))

/-- `run` at a `killall`.  The paths of freed processes are undefined. -/
def runKillall (w : World (Shared ℕ) n) (p : ℕ) (ins : InsT) : Option (World (Shared ℕ) n) :=
  if w.Listed then
    (sysKillall ((w.advance p ins).kernel cfg name) p ins.arg1).map (w.advance p ins).setKernel
  else none

/-- `run` with all instructions. -/
def runAll (w : World (Shared ℕ) n) (p : ℕ) : Option (World (Shared ℕ) n) :=
  match (cfg.code p)[w.pc p]? with
  | none => some w
  | some ins =>
      if ins.IsKillall then runKillall cfg name w p ins
      else (execIns p ins w.mem).map fun mem => { w.advance p ins with mem := mem }

/-- One step of the system: as before, but for `run`. -/
def killStep (w : World (Shared ℕ) n) : Label n → Option (World (Shared ℕ) n)
  | .cpu i =>
      let c := w.cpu i
      match c.line with
      | .run =>
          c.proc.bind fun p => (runAll cfg name w p).map fun v =>
            v.setCpu i { c with line := .slot, timeLeft := c.timeLeft - 1 }
      | _ => cpuStep cfg.withMemory w i
  | l => osStep cfg.withMemory w l

/-- All interleavings of the CPUs and the loader, with the memory library on the devices `dev`,
for processes with the given names in the configuration. -/
def killMachine (dev : Dev → Memphy) :
    Lts (World (Shared ℕ) cfg.numCpus) (Label cfg.numCpus) where
  init w := w = World.init cfg.numCpus (bootMem dev)
  step := killStep cfg name

end System

/-! ## The calls as calculations -/

/-- The configuration with calculations in the place of the calls. -/
def Config.withoutKills (cfg : Config μ) : Config μ where
  timeSlot := cfg.timeSlot
  numCpus := cfg.numCpus
  ldProcesses := cfg.ldProcesses.map fun p => ⟨p.prio, p.code.map InsT.withoutKill⟩
  exec := cfg.exec

/-- A state with calculations in the place of the calls that were executed. -/
def World.withoutKills (w : World μ n) : World μ n :=
  { w with executed := fun p => (w.executed p).map InsT.withoutKill }

variable {cfg : Config μ} {name : ℕ → List BYTE} {dev : Dev → Memphy}

theorem code_withoutKills (cfg : Config μ) (p : ℕ) :
    cfg.withoutKills.withMemory.code p = (cfg.code p).map InsT.withoutKill := by
  rw [Config.code, Config.code, Config.withMemory, Config.withoutKills, List.getElem?_map]
  cases cfg.ldProcesses[p]? <;> rfl

theorem prio_withoutKills (cfg : Config μ) :
    cfg.withoutKills.withMemory.prio = cfg.withMemory.prio := by
  ext p
  rw [Config.prio, Config.prio, Config.withMemory, Config.withMemory, Config.withoutKills,
    List.getElem?_map]
  cases cfg.ldProcesses[p]? <;> rfl

/-- The next instruction. -/
theorem get_withoutKills (cfg : Config μ) (w : World (Shared ℕ) n) (p : ℕ) :
    (cfg.withoutKills.withMemory.code p)[w.withoutKills.pc p]? =
      ((cfg.code p)[w.pc p]?).map InsT.withoutKill := by
  have hpc : w.withoutKills.pc p = w.pc p := rfl
  rw [code_withoutKills, hpc, List.getElem?_map]

/-- Every line of `cpu_routine` but `run`. -/
theorem cpuStep_withoutKills (w : World (Shared ℕ) n) (i : Fin n) (hline : (w.cpu i).line ≠ .run) :
    cpuStep cfg.withoutKills.withMemory w.withoutKills i =
      (cpuStep cfg.withMemory w i).map World.withoutKills := by
  have hlen : ∀ p,
      (cfg.withoutKills.withMemory.code p).length = (cfg.withMemory.code p).length := by
    intro p
    rw [code_withoutKills, List.length_map]
    rfl
  rcases hcpu : w.cpu i with ⟨line, proc, t⟩
  have hcpu' : w.withoutKills.cpu i = ⟨line, proc, t⟩ := hcpu
  rw [hcpu] at hline
  rw [cpuStep, cpuStep, hcpu, hcpu']
  cases line with
  | head =>
      cases proc with
      | none => rfl
      | some p =>
          have hpc : w.withoutKills.pc p = w.pc p := rfl
          simp only [hlen, hpc]
          split
          · rfl
          · split <;> rfl
  | load =>
      simp only [prio_withoutKills]
      rfl
  | putRunning => cases proc <;> rfl
  | putReady =>
      cases proc with
      | none => rfl
      | some p =>
          simp only [prio_withoutKills, Option.bind_some, Option.map_map]
          rfl
  | reload =>
      simp only [prio_withoutKills]
      rfl
  | check => cases proc <;> rfl
  | run => exact absurd rfl hline
  | slot | detach | exited => rfl

/-- The loader. -/
theorem ldStep_withoutKills (w : World (Shared ℕ) n) :
    ldStep cfg.withoutKills.withMemory w.withoutKills =
      (ldStep cfg.withMemory w).map World.withoutKills := by
  have hlen : cfg.withoutKills.withMemory.ldProcesses.length =
      cfg.withMemory.ldProcesses.length := by
    rw [Config.withMemory, Config.withoutKills, List.length_map]
    rfl
  have hld : w.withoutKills.ld = w.ld := rfl
  rw [ldStep, ldStep, hld]
  cases w.ld.line with
  | head =>
      simp only [hlen]
      split <;> rfl
  | addReady =>
      simp only [prio_withoutKills, Option.map_map]
      rfl
  | wait | addRunning | slot | detach | exited => rfl

/-- An instruction that is executed. -/
theorem withoutKills_advance (w : World (Shared ℕ) n) (p : ℕ) (ins : InsT) :
    (w.advance p ins).withoutKills = w.withoutKills.advance p ins.withoutKill := by
  have hexecuted : (fun q => ((w.advance p ins).executed q).map InsT.withoutKill) =
      Function.update (fun q => (w.executed q).map InsT.withoutKill) p
        ((w.executed p).map InsT.withoutKill ++ [ins.withoutKill]) := by
    ext q : 1
    simp only [World.advance]
    rcases eq_or_ne q p with rfl | hne
    · rw [Function.update_self, Function.update_self, List.map_append, List.map_singleton]
    · rw [Function.update_of_ne hne, Function.update_of_ne hne]
  rw [World.withoutKills, hexecuted]
  rfl

/-- `run` at the end of the code. -/
theorem run_withoutKills_end {w : World (Shared ℕ) n} {p : ℕ}
    (hins : (cfg.code p)[w.pc p]? = none) :
    run cfg.withoutKills.withMemory w.withoutKills p = some w.withoutKills := by
  rw [run, get_withoutKills, hins]
  rfl

/-- `run` with a calculation in the place of a call. -/
theorem run_withoutKills {w : World (Shared ℕ) n} {p : ℕ} {ins : InsT}
    (hins : (cfg.code p)[w.pc p]? = some ins) :
    run cfg.withoutKills.withMemory w.withoutKills p =
      (execIns p ins.withoutKill w.mem).map fun mem =>
        { (w.advance p ins).withoutKills with mem := mem } := by
  rw [withoutKills_advance, run, get_withoutKills, hins]
  simp only [Option.map_some, if_neg ins.not_isKillall_withoutKill]
  rfl

theorem execIns_calc {p : ℕ} {ins : InsT} (hop : ins.opcode = .calc) (mem : Shared ℕ) :
    execIns p ins mem = some mem := by
  rw [execIns, Cpu.run]
  simp only [List.getElem?_cons_zero, hop, Option.map_some, Shared.put_caller]

/-! ## What a call does -/

/-- What `load` leaves of the path of a process with this name does not end with a slash. -/
def Named (n : List BYTE) : Prop := (load (readConfigPath n) []).path.getLast? ≠ some slash

instance (n : List BYTE) : Decidable (Named n) := inferInstanceAs (Decidable (_ ≠ _))

/-- The empty name is the name of nobody. -/
theorem not_hasName_nil {p : Pcb} (h : p.path.getLast? ≠ some slash) : ¬ p.hasName [] := by
  rw [Pcb.hasName]
  cases hfind : CString.strrchr slash p.path with
  | none => simp
  | some t =>
      obtain ⟨l, u, hpath, rfl⟩ := CString.strrchr_eq_some hfind
      intro hnil
      obtain rfl : u = [] := of_decide_eq_true hnil
      apply h
      rw [hpath, List.getLast?_append, List.getLast?_singleton]
      rfl

/-- **The name** that is read without a page is empty. -/
theorem readName_absent {c c' : Caller} {memrg : ℤ} {procName : List BYTE} (h : Absent c)
    (hread : readName c memrg = some (procName, c')) : procName = [] ∧ c' = c := by
  obtain ⟨name, hname, -, rfl⟩ := readName_eq_some.mp hread
  cases hname with
  | failed hfail =>
      obtain ⟨-, rfl⟩ := Prod.mk.inj (h.libread_eq_some hfail)
      exact ⟨rfl, rfl⟩
  | stop hstop => cases h.libread_eq_some hstop
  | byte hbyte _ _ => cases h.libread_eq_some hbyte

/-- A name of nobody has no victims. -/
theorem victims_eq_nil {k : Kernel} {procName : List BYTE}
    (h : ∀ q, ¬ named k.pcb procName q) : victims k procName = [] := by
  have hnone : ∀ q, victimsOf k.pcb procName q = [] := fun q =>
    List.filter_eq_nil_iff.mpr fun p _ => h p
  simp [victims, hnone]

/-- The loops leave everything as it is. -/
theorem withoutVictims_self {k : Kernel} {procName : List BYTE}
    (h : ∀ q, ¬ named k.pcb procName q) : withoutVictims k procName = k := by
  have hpcb : ended k.pcb (victims k procName) = k.pcb := by
    rw [victims_eq_nil h]
    ext q : 1
    simp [ended]
  have hrunning : swept (fun i => i) k.pcb procName k.runningList = k.runningList := by
    ext1
    rw [proc_swept_self, List.filter_eq_self]
    intro p _
    simpa using h p
  have hready : ∀ q, swept (fun _ => 0) k.pcb procName (k.mlqReadyQueue q) =
      k.mlqReadyQueue q := by
    intro q
    ext1
    have hcount : (k.mlqReadyQueue q).proc.countP (named k.pcb procName) = 0 :=
      List.countP_eq_zero.mpr fun p _ => h p
    rw [proc_swept_front, hcount, List.drop_zero]
  rw [withoutVictims, hpcb, hrunning]
  simp only [hready, ite_self]

/-- **A call** of a process without a page changes nothing. -/
theorem sysKillall_absent {k k' : Kernel} {p : ℕ} {a1 : BitVec 32}
    (habsent : Absent (k.mem.caller p)) (hno : ∀ q, ¬ (k.pcb q).hasName [])
    (h : sysKillall k p a1 = some k') : k' = k := by
  obtain ⟨procName, c, mem, hname, -, hfree, rfl⟩ := sysKillall_eq_some h
  obtain ⟨rfl, rfl⟩ := readName_absent habsent hname
  have hnone : ∀ q, ¬ named k.pcb [] q := hno
  rw [victims_eq_nil hnone, Shared.put_caller] at hfree
  obtain rfl := Option.some.inj hfree
  rw [withoutVictims_self hnone]

/-- **`run` at a call** only counts the instruction. -/
theorem runKillall_absent {w v : World (Shared ℕ) n} {p : ℕ} {ins : InsT}
    (habsent : Absent (w.mem.caller p)) (hname : ∀ q, Named (name q))
    (h : runKillall cfg name w p ins = some v) : v = w.advance p ins := by
  obtain ⟨-, hcall⟩ := Option.ite_none_right_eq_some.mp h
  obtain ⟨k, hk, rfl⟩ := Option.map_eq_some_iff.mp hcall
  have hmem : ((w.advance p ins).kernel cfg name).mem.caller p = w.mem.caller p := rfl
  rw [← hmem] at habsent
  obtain rfl := sysKillall_absent habsent (fun q => not_hasName_nil (hname q)) hk
  rfl

/-! ## The runs -/

/-- **One step** with the calls is one step without them. -/
theorem killStep_withoutKills {w v : World (Shared ℕ) n} {l : Label n}
    (habsent : ∀ p, Absent (w.mem.caller p)) (hname : ∀ q, Named (name q))
    (h : killStep cfg name w l = some v) :
    osStep cfg.withoutKills.withMemory w.withoutKills l = some v.withoutKills := by
  cases l with
  | cpu i =>
      by_cases hline : (w.cpu i).line = .run
      · rw [killStep] at h
        simp only [hline] at h
        obtain ⟨p, hp, h⟩ := Option.bind_eq_some_iff.mp h
        obtain ⟨u, hu, rfl⟩ := Option.map_eq_some_iff.mp h
        have hrun : run cfg.withoutKills.withMemory w.withoutKills p = some u.withoutKills := by
          rw [runAll] at hu
          split at hu
          · next hins =>
              obtain rfl := Option.some.inj hu
              exact run_withoutKills_end hins
          · next ins hins =>
              rw [run_withoutKills hins]
              split at hu
              · next hkill =>
                  obtain rfl := runKillall_absent (habsent p) hname hu
                  rw [execIns_calc (InsT.opcode_withoutKill hkill)]
                  rfl
              · next hkill =>
                  obtain ⟨mem, hmem, rfl⟩ := Option.map_eq_some_iff.mp hu
                  rw [InsT.withoutKill_of_not hkill, hmem]
                  rfl
        have hline' : (w.withoutKills.cpu i).line = .run := hline
        have hp' : (w.withoutKills.cpu i).proc = some p := hp
        rw [osStep, cpuStep]
        simp only [hline', hp', hp, Option.bind_some, hrun, Option.map_some]
        rfl
      · have hcpu : cpuStep cfg.withMemory w i = some v := by
          simpa only [killStep, hline] using h
        exact (cpuStep_withoutKills w i hline).trans (by rw [hcpu]; rfl)
  | loader =>
      have hld : ldStep cfg.withMemory w = some v := h
      exact (ldStep_withoutKills w).trans (by rw [hld]; rfl)
  | loaderWait =>
      obtain ⟨hline, heq⟩ := Option.ite_none_right_eq_some.mp h
      obtain rfl := Option.some.inj heq
      exact if_pos hline

/-- **The calls do nothing**: if no path is cut off behind a slash, a run with the calls is the
run that the same interleaving makes of the programs with calculations in the place of the
calls.  So nobody is ever killed, and no list and no memory is changed, whatever names the
programs write before they call. -/
theorem killall_harmless {w : World (Shared ℕ) cfg.numCpus} {ls : List (Label cfg.numCpus)}
    (hname : ∀ p, Named (name p))
    (h : (killMachine cfg name dev).run (World.init cfg.numCpus (bootMem dev)) ls = some w) :
    (machine cfg.withoutKills dev).run (World.init cfg.numCpus (bootMem dev)) ls =
      some w.withoutKills := by
  induction ls using List.reverseRecOn generalizing w with
  | nil =>
      obtain rfl := Option.some.inj h
      rfl
  | append_singleton ls l ih =>
      obtain ⟨u, hu, hstep⟩ := ((killMachine cfg name dev).run_concat_eq_some).mp h
      have hrun := ih hu
      have hunused : Unused cfg.withoutKills dev u.withoutKills.mem :=
        reachable_unused ⟨_, ls, rfl, hrun⟩
      exact ((machine cfg.withoutKills dev).run_concat_eq_some).mpr
        ⟨u.withoutKills, hrun, killStep_withoutKills hunused.absent hname hstep⟩

/-- One process, which calls `killall`. -/
abbrev oneKill : Config Unit where
  timeSlot := 2
  numCpus := 1
  ldProcesses := [⟨1, [⟨.syscall, 101, 1, 0, 0⟩]⟩]
  exec _ _ _ := some ()

/-- The name `p0`. -/
def nameP0 : List BYTE := [112, 48]

/-- The process is loaded, dispatched and run. -/
def oneKillRun : List (Label 1) :=
  List.replicate 4 .loader ++ List.replicate 7 (.cpu ⟨0, Nat.one_pos⟩)

theorem killall_harmless_oneKill :
    ∃ w, (killMachine oneKill (fun _ => nameP0) (freshDevs 768)).run
        (World.init 1 (bootMem (freshDevs 768))) oneKillRun = some w ∧
      w.executed 0 = [⟨.syscall, 101, 1, 0, 0⟩] ∧
      (machine oneKill.withoutKills (freshDevs 768)).run (World.init 1 (bootMem (freshDevs 768)))
        oneKillRun = some w.withoutKills := by
  have hrun : ((killMachine oneKill (fun _ => nameP0) (freshDevs 768)).run
      (World.init 1 (bootMem (freshDevs 768))) oneKillRun).any
      (fun w => w.executed 0 = [⟨.syscall, 101, 1, 0, 0⟩]) = true := by decide +kernel
  obtain ⟨w, hw, hexecuted⟩ := (Option.any_eq_true _ _).mp hrun
  exact ⟨w, hw, of_decide_eq_true hexecuted, killall_harmless (fun _ => by decide) hw⟩

/-- What is reached with the calls is reached without them. -/
theorem reachable_withoutKills {w : World (Shared ℕ) cfg.numCpus} (hname : ∀ p, Named (name p))
    (h : (killMachine cfg name dev).Reachable w) :
    (machine cfg.withoutKills dev).Reachable w.withoutKills := by
  obtain ⟨s, ls, rfl, hrun⟩ := h
  exact ⟨_, ls, rfl, killall_harmless hname hrun⟩

/-! ## When no call is possible -/

section Registered
variable {c : Config μ}

/-- The first process is at the head of the running list from the time it is added. -/
def Registered (w : World μ n) : Prop :=
  w.sched.runningList.proc.head? = some 0 ∨ w.sched.runningList.proc = [] ∧ ¬ w.Added 0

/-- The array never loses its first entry. -/
theorem head?_enqueue {q : Queue ℕ} (h : q.proc.head? = some 0) (p : ℕ) :
    (q.enqueue p).proc.head? = some 0 := by
  by_cases hfull : q.size = maxQueueSize
  · rwa [Queue.enqueue_of_full hfull]
  · rw [Queue.proc_enqueue_of_room hfull, List.head?_append, h]
    rfl

theorem Registered.congr {w v : World μ n} (h : Registered w)
    (hlist : v.sched.runningList = w.sched.runningList) (hadded : v.Added 0 → w.Added 0) :
    Registered v := by
  rw [Registered, hlist]
  exact h.imp id fun hno => ⟨hno.1, fun h0 => hno.2 (hadded h0)⟩

theorem Registered.head? {w : World μ n} (h : Registered w) (h0 : w.Added 0) :
    w.sched.runningList.proc.head? = some 0 :=
  h.resolve_right fun hno => hno.2 h0

/-- **One step.** -/
theorem Registered.step {w v : World μ n} {l : Label n} (hw : Sound c w) (h : Registered w)
    (hstep : osStep c w l = some v) : Registered v := by
  cases l with
  | cpu i =>
      have hcpu : cpuStep c w i = some v := hstep
      have hld : v.ld = w.ld := (cpuStep_cases hcpu).ld.1
      have hadded : v.Added 0 → w.Added 0 := by
        rw [World.Added, World.Added, hld]
        exact id
      cases cpuStep_list hw.counters hcpu with
      | finish _ _ _ hlist => exact h.congr hlist hadded
      | other _ _ _ hlist => exact h.congr hlist hadded
      | enlist p hline hp _ hlist =>
          have hcur : (w.cpu i).current = some p := by rw [Cpu.current, hline, hp]
          have hlt := hw.owned_lt p (mem_owned_of_current hcur)
          left
          rw [hlist]
          exact head?_enqueue (h.head? (Or.inl (by omega))) p
  | loader =>
      have hld := ldStep_lines hstep
      cases hline : w.ld.line with
      | addRunning =>
          rw [hline] at hld
          cases hld
          left
          rcases h with hhead | ⟨hnil, hnew⟩
          · exact head?_enqueue hhead _
          · -- The list is empty, and the process that is added is the first.
            have h0 : w.ld.i = 0 := by
              by_contra hne
              exact hnew (Or.inl (Nat.pos_of_ne_zero hne))
            have hroom : w.sched.runningList.size ≠ maxQueueSize := by
              rw [Queue.size, hnil]
              decide
            have hproc : (w.sched.runningList.enqueue w.ld.i).proc = [0] := by
              rw [Queue.proc_enqueue_of_room hroom, hnil, h0, List.nil_append]
            exact congrArg List.head? hproc
      | addReady =>
          rw [hline] at hld
          cases hld with
          | addReady s hs =>
              have hlist : s.runningList = w.sched.runningList :=
                runningList_putMlqProc hs
              refine h.congr hlist fun _ => ?_
              rcases Nat.eq_zero_or_pos w.ld.i with h0 | hpos
              · exact Or.inr ⟨hline, h0.symm⟩
              · exact Or.inl hpos
      | head | wait | slot | detach | exited =>
          rw [hline] at hld
          cases hld <;>
          · refine h.congr rfl ?_
            simp [World.Added, hline]
  | loaderWait =>
      rw [osStep_loaderWait hstep]
      exact h

theorem reachable_registered {w : World μ c.numCpus} (h : (osSystem c).Reachable w) :
    Registered w := by
  refine h.invariant_of (P := Registered) ?_ fun _ _ _ hs hP hstep =>
    hP.step (reachable_sound hs) hstep
  rintro w ⟨mem, rfl⟩
  exact Or.inr ⟨rfl, by simp [World.init, World.Added]⟩

/-- When the first process has finished, it is still in the running list. -/
theorem Registered.mem {w : World μ n} (hw : Sound c w) (h : Registered w)
    (hfin : 0 ∈ w.finished) : 0 ∈ w.sched.runningList.proc :=
  List.mem_of_head? (h.head? (Or.inl (hw.finished_lt 0 hfin)))

end Registered

/-- What a step executes: nothing, or an instruction, which is a call only if no process in the
running list was freed. -/
theorem killStep_executed {w v : World (Shared ℕ) n} {l : Label n}
    (h : killStep cfg name w l = some v) :
    v.executed = w.executed ∨ ∃ p ins,
      v.executed = Function.update w.executed p (w.executed p ++ [ins]) ∧
        (ins.IsKillall → w.Listed) := by
  cases l with
  | cpu i =>
      by_cases hline : (w.cpu i).line = .run
      · simp only [killStep, hline] at h
        obtain ⟨p, -, h⟩ := Option.bind_eq_some_iff.mp h
        obtain ⟨u, hu, rfl⟩ := Option.map_eq_some_iff.mp h
        rw [runAll] at hu
        split at hu
        · obtain rfl := Option.some.inj hu
          exact Or.inl rfl
        · next ins _ =>
            right
            refine ⟨p, ins, ?_⟩
            split at hu
            · obtain ⟨hlisted, hcall⟩ := Option.ite_none_right_eq_some.mp hu
              obtain ⟨k, -, rfl⟩ := Option.map_eq_some_iff.mp hcall
              exact ⟨rfl, fun _ => hlisted⟩
            · next hno =>
                obtain ⟨mem, -, rfl⟩ := Option.map_eq_some_iff.mp hu
                exact ⟨rfl, fun hkill => absurd hkill hno⟩
      · have hcpu : cpuStep cfg.withMemory w i = some v := by
          simpa only [killStep, hline] using h
        have hlines := cpuStep_lines hcpu
        generalize w.cpu i = c at hline hlines
        cases hlines with
        | run => exact absurd rfl hline
        | _ => exact Or.inl rfl
  | loader =>
      have hstep : ldStep cfg.withMemory w = some v := h
      have hld := ldStep_lines hstep
      generalize w.ld.line = line at hld
      cases hld <;> exact Or.inl rfl
  | loaderWait =>
      obtain ⟨-, heq⟩ := Option.ite_none_right_eq_some.mp h
      obtain rfl := Option.some.inj heq
      exact Or.inl rfl

/-- The first process stays in the running list when it is freed. -/
theorem mem_runningList_of_finished {w : World (Shared ℕ) cfg.numCpus}
    (hname : ∀ p, Named (name p)) (h : (killMachine cfg name dev).Reachable w)
    (hfin : 0 ∈ w.finished) : 0 ∈ w.sched.runningList.proc := by
  have hreach : (osSystem cfg.withoutKills.withMemory).Reachable w.withoutKills :=
    (machine_simulates cfg.withoutKills dev).reachable (reachable_withoutKills hname h)
  have hmem : 0 ∈ w.withoutKills.sched.runningList.proc :=
    (reachable_registered hreach).mem (reachable_sound hreach) hfin
  exact hmem

/-- Then no call is defined. -/
theorem not_listed_of_finished {w : World (Shared ℕ) cfg.numCpus} (hname : ∀ p, Named (name p))
    (h : (killMachine cfg name dev).Reachable w) (hfin : 0 ∈ w.finished) : ¬ w.Listed :=
  fun hlisted => hlisted 0 (mem_runningList_of_finished hname h hfin) hfin

/-- The calls that a process has executed. -/
def World.kills (w : World μ n) (p : ℕ) : List InsT :=
  (w.executed p).filter fun ins => ins.IsKillall

/-- A step that executes no call. -/
theorem kills_killStep {w v : World (Shared ℕ) n} {l : Label n} (hno : ¬ w.Listed)
    (h : killStep cfg name w l = some v) : v.kills = w.kills := by
  ext q : 1
  rw [World.kills, World.kills]
  rcases killStep_executed h with hsame | ⟨p, ins, hexecuted, hcall⟩
  · rw [hsame]
  · rw [hexecuted]
    rcases eq_or_ne q p with rfl | hne
    · have hkill : ¬ ins.IsKillall := fun hkill => hno (hcall hkill)
      simp [hkill]
    · rw [Function.update_of_ne hne]

/-- **No call after the first process has finished**: it stays in the running list although its
control block was freed, so a CPU that comes to a call follows a pointer to freed memory, and no
call is executed any more. -/
theorem killall_after_free {t u : World (Shared ℕ) cfg.numCpus} {ls : List (Label cfg.numCpus)}
    (hname : ∀ p, Named (name p)) (ht : (killMachine cfg name dev).Reachable t)
    (hfin : 0 ∈ t.finished) (h : (killMachine cfg name dev).run t ls = some u) :
    0 ∈ u.sched.runningList.proc ∧ u.kills = t.kills ∧
      ∀ i p ins, (u.cpu i).line = .run → (u.cpu i).proc = some p →
        (cfg.code p)[u.pc p]? = some ins → ins.IsKillall →
          (killMachine cfg name dev).step u (.cpu i) = none := by
  have hafter : (killMachine cfg name dev).Reachable u ∧ 0 ∈ u.finished ∧ u.kills = t.kills := by
    refine (killMachine cfg name dev).run_invariant (P := fun w =>
      (killMachine cfg name dev).Reachable w ∧ 0 ∈ w.finished ∧ w.kills = t.kills) ?_ h
      ⟨ht, hfin, rfl⟩
    rintro w l v ⟨hw, hw0, hsame⟩ hstep
    have hw' := reachable_withoutKills hname hw
    have hsound : Sound cfg.withoutKills.withMemory w.withoutKills :=
      reachable_sound ((machine_simulates cfg.withoutKills dev).reachable hw')
    have habsent : ∀ p, Absent (w.mem.caller p) := (reachable_unused hw').absent
    have hos := killStep_withoutKills habsent hname hstep
    refine ⟨hw.step hstep, (osStep_mono hsound hos).1 0 hw0, ?_⟩
    rw [← hsame]
    exact kills_killStep (not_listed_of_finished hname hw hw0) hstep
  obtain ⟨hu, hu0, hsame⟩ := hafter
  refine ⟨mem_runningList_of_finished hname hu hu0, hsame, ?_⟩
  intro i p ins hline hproc hins hkill
  have hno := not_listed_of_finished hname hu hu0
  have hcall : runAll cfg name u p = none := by
    rw [runAll, hins]
    simp only [if_pos hkill, runKillall, if_neg hno]
  simp only [killMachine, killStep, hline, hproc, Option.bind_some, hcall, Option.map_none]

/-- An empty process, and one that calls `killall`. -/
abbrev lateKill : Config Unit where
  timeSlot := 2
  numCpus := 1
  ldProcesses := [⟨1, []⟩, ⟨1, [⟨.syscall, 101, 1, 0, 0⟩]⟩]
  exec _ _ _ := some ()

/-- When the CPU comes to the call, the first process has finished. -/
theorem killall_after_free_lateKill :
    ∃ t u, (killMachine lateKill (fun _ => nameP0) (freshDevs 768)).Reachable t ∧
      (killMachine lateKill (fun _ => nameP0) (freshDevs 768)).run t
        (List.replicate 2 (.cpu 0)) = some u ∧
      0 ∈ u.sched.runningList.proc ∧ u.kills = t.kills ∧
      (killMachine lateKill (fun _ => nameP0) (freshDevs 768)).step u (.cpu 0) = none := by
  have hrun : ((killMachine lateKill (fun _ => nameP0) (freshDevs 768)).run
      (World.init 1 (bootMem (freshDevs 768)))
      (List.replicate 9 .loader ++ List.replicate 9 (.cpu 0))).any (fun t =>
        0 ∈ t.finished ∧ ((killMachine lateKill (fun _ => nameP0) (freshDevs 768)).run t
          (List.replicate 2 (.cpu 0))).any (fun u =>
            (u.cpu 0).line = .run ∧ (u.cpu 0).proc = some 1 ∧ u.pc 1 = 0)) = true := by
    decide +kernel
  obtain ⟨t, ht, hcase⟩ := (Option.any_eq_true _ _).mp hrun
  obtain ⟨hfin, hnext⟩ := of_decide_eq_true hcase
  obtain ⟨u, hu, hcpu⟩ := (Option.any_eq_true _ _).mp hnext
  obtain ⟨hline, hproc, hpc⟩ := of_decide_eq_true hcpu
  have hreach : (killMachine lateKill (fun _ => nameP0) (freshDevs 768)).Reachable t :=
    ⟨_, _, rfl, ht⟩
  obtain ⟨hlisted, hsame, hstuck⟩ := killall_after_free (fun _ => by decide) hreach hfin hu
  have hins : (lateKill.code 1)[u.pc 1]? = some ⟨.syscall, 101, 1, 0, 0⟩ := by rw [hpc]; rfl
  exact ⟨t, u, hreach, hu, hlisted, hsame, hstuck 0 1 _ hline hproc hins (by decide)⟩

end SimOs.Os
