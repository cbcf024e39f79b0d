import SimOs.Os.Machine
import SimOs.Os.Liveness

/-!
# The whole program

The threads, the timer and `main` with the memory library.  The simulator with some effect of
instructions is total if `run` is always defined; here the effect is that of the library,
which is defined for the region ids of the table and sizes that do not overflow.  What the
processes do then ends, and the free frames at the end do not depend on the interleaving.

## Main definitions

* `Setup.withMemory`, `program`: the system.
* `InsT.Safe`: the instructions for which the library is defined.
* `program_completes`: how every run ends.
-/

namespace SimOs

/-- The instructions whose ids are in the table and whose sizes do not overflow.  To the accesses
all ids are known but the one past the end of the table. -/
def InsT.Safe (ins : InsT) : Prop :=
  match ins.opcode with
  | .calc | .free => True
  | .alloc => ins.Sized ∧ Libmem.IsSymbol ins.arg1.toNat
  | .read => ins.arg0.toNat ≠ pagingMaxSymtblSz
  | .write => ins.arg1.toNat ≠ pagingMaxSymtblSz
  | .syscall => ¬ ins.IsMemmap ∧ ¬ ins.IsKillall

instance (ins : InsT) : Decidable ins.Safe := by
  rw [InsT.Safe]
  split <;> infer_instance

theorem InsT.Safe.sized {ins : InsT} (h : ins.Safe) : ins.Sized := by
  intro hop
  rw [InsT.Safe, hop] at h
  exact h.1 hop

theorem InsT.Safe.not_isMemmap {ins : InsT} (h : ins.Safe) : ¬ ins.IsMemmap := by
  intro hmemmap
  rw [InsT.Safe, hmemmap.1] at h
  exact h.1 hmemmap

theorem InsT.Safe.not_isKillall {ins : InsT} (h : ins.Safe) : ¬ ins.IsKillall := by
  intro hkillall
  rw [InsT.Safe, hkillall.1] at h
  exact h.2 hkillall

end SimOs

namespace SimOs.Libmem

variable {c : Caller}

/-- A read is defined for all ids but one. -/
theorem Absent.libread_isSome (h : Absent c) {source : ℤ} (offset : ℤ)
    (hid : CInt.sint 32 source ≠ pagingMaxSymtblSz) :
    (Libmem.libread c source offset).isSome := by
  obtain ⟨vma, ha⟩ := h.area
  by_cases hsym : IsSymbol (CInt.sint 32 source)
  · have hsame : Libmem.libread c source offset =
        Libmem.libread c (CInt.sint 32 source) offset := by
      unfold Libmem.libread
      rw [hsym.sint]
    rw [hsame, h.libread hsym]
    rfl
  · rw [libread_outside ha.hasArea hsym, if_neg hid]
    rfl

/-- So is a write. -/
theorem Absent.libwrite_isSome (h : Absent c) (data : BYTE) {destination : ℤ} (offset : ℤ)
    (hid : CInt.sint 32 destination ≠ pagingMaxSymtblSz) :
    (Libmem.libwrite c data destination offset).isSome := by
  obtain ⟨vma, ha⟩ := h.area
  by_cases hsym : IsSymbol (CInt.sint 32 destination)
  · have hsame : Libmem.libwrite c data destination offset =
        Libmem.libwrite c data (CInt.sint 32 destination) offset := by
      unfold Libmem.libwrite
      rw [hsym.sint]
    rw [hsame, h.libwrite hsym]
    rfl
  · rw [libwrite_outside ha.hasArea hsym, if_neg hid]
    rfl

end SimOs.Libmem

namespace SimOs.Os

open SimOs.Sched World Simulator Libmem

universe u
variable {μ : Type u} {cfg : Setup μ} {dev : Dev → Memphy} {frames : List ℤ}

/-- The configuration with the memory library. -/
def Setup.withMemory (cfg : Setup μ) : Setup (Shared ℕ) where
  toConfig := cfg.toConfig.withMemory
  startTime := cfg.startTime

/-- All interleavings of the program, on the devices `dev`. -/
def program (cfg : Setup μ) (dev : Dev → Memphy) :
    Lts (Simulator (Shared ℕ) cfg.numCpus) (SimLabel cfg.numCpus) where
  init s := s = Simulator.init cfg.numCpus (bootMem dev)
  step := simStep cfg.withMemory

/-- The program runs the scheduler over the memory library. -/
theorem machine_simulates_program (cfg : Setup μ) (dev : Dev → Memphy) :
    (machine cfg.toConfig dev).Simulates (program cfg dev) Simulator.os where
  init _ hs := congrArg Simulator.os hs
  step s l t h := by
    have hsim : simStep cfg.withMemory s l = some t := h
    rcases simStep_os hsim with hos | ⟨l', hl'⟩
    · exact ⟨[], congrArg some hos.symm⟩
    · exact ⟨[l'], Lts.run_cons_of_step _ hl' []⟩

/-- It is the simulator, started on these devices. -/
theorem simulator_simulates_program (cfg : Setup μ) (dev : Dev → Memphy) :
    (simulator cfg.withMemory).Simulates (program cfg dev) id where
  init _ hs := ⟨bootMem dev, hs⟩
  step _ l _ hstep := ⟨[l], Lts.run_cons_of_step _ hstep []⟩

/-! ## Instructions that are defined -/

/-- An operand that is not 30 is not 30 as an `int` either. -/
theorem sint_operand {x : BitVec 32} (h : (x.toNat : ℤ) ≠ pagingMaxSymtblSz) :
    CInt.sint 32 x.toNat ≠ pagingMaxSymtblSz := by
  have hlt := x.isLt
  rw [pagingMaxSymtblSz] at h ⊢
  rw [CInt.sint, Int.bmod_def]
  omega

/-- The other system calls do nothing. -/
theorem libsyscall_isSome {p : Cpu.Process} {ins : InsT} (hmemmap : ins.arg0 ≠ sysMemmapNr)
    (hkillall : ins.arg0 ≠ SimOs.sysKillall) :
    (libsyscall .zeroed (fun _ _ => none) p ins).isSome := by
  have h17 : ins.arg0.toNat ≠ 17 := fun heq => hmemmap (BitVec.toNat_inj.mp heq)
  have h101 : ins.arg0.toNat ≠ 101 := fun heq => hkillall (BitVec.toNat_inj.mp heq)
  rw [libsyscall, syscall_syscallTbl]
  by_cases hlist : ins.arg0.toNat = 0
  · simp [hlist]
  · simp [hlist, h17, h101]

/-- **The effect of a safe instruction** is defined. -/
theorem execIns_isSome {vma : VmArea} {rgs : List VmRg} {mem : Shared ℕ} {p : ℕ} {ins : InsT}
    (hspace : Space (mem.caller p) vma rgs frames) (habsent : Absent (mem.caller p))
    (hsafe : ins.Safe) : (execIns p ins mem).isSome := by
  rw [execIns, Option.isSome_map, Cpu.run]
  simp only [List.getElem?_cons_zero]
  rw [InsT.Safe] at hsafe
  cases hop : ins.opcode <;> simp only [hop] at hsafe ⊢
  · rfl
  case alloc =>
    rw [Option.isSome_map]
    exact hspace.liballoc_isSome hsafe.2 _
  case free =>
    obtain ⟨r, hr, -⟩ := hspace.libfree_takes ins.arg0.toNat
    rw [hr]
    rfl
  case read =>
    rw [Option.isSome_map, Cpu.libreadArg2, Option.isSome_map]
    exact habsent.libread_isSome _ (sint_operand hsafe)
  case write =>
    rw [Option.isSome_map]
    exact habsent.libwrite_isSome _ _ (sint_operand hsafe)
  case syscall =>
    exact libsyscall_isSome (fun harg => hsafe.1 ⟨hop, harg⟩) fun harg => hsafe.2 ⟨hop, harg⟩

/-! ## How the program ends -/

/-- Programs that the library can run, with priorities for which there is a queue. -/
structure Config.Safe (cfg : Config μ) : Prop where
  code : ∀ p, ∀ ins ∈ cfg.code p, ins.Safe
  prio : ∀ p, p < cfg.ldProcesses.length → cfg.prio p < maxPrio

/-- In the memory of the system every instruction has an effect. -/
theorem Ledger.total {n : ℕ} {w : World (Shared ℕ) n} (h : Ledger cfg.toConfig frames w)
    (hsafe : cfg.toConfig.Safe) : cfg.toConfig.withMemory.Total w.mem where
  exec p ins hins := by
    obtain ⟨vma, rgs, hspace⟩ := h.booted.space p
    exact execIns_isSome hspace (h.booted.absent p) (hsafe.code p ins hins)
  killall p ins hins := (hsafe.code p ins hins).not_isKillall
  prio := hsafe.prio

section Ends
variable {s t : Simulator (Shared ℕ) cfg.numCpus} {ls : List (SimLabel cfg.numCpus)}

theorem program_ledger (hsafe : cfg.toConfig.Safe) (hdev : Boots dev frames)
    (h : (program cfg dev).Reachable t) : Ledger cfg.toConfig frames t.os :=
  reachable_ledger hdev (fun p ins hins => (hsafe.code p ins hins).sized)
    ((machine_simulates_program cfg dev).reachable h)

/-- A run that is long enough, or cannot go on, has finished all processes, and each has executed
its code. -/
theorem program_executed (hn : 0 < cfg.numCpus) (hroom : cfg.Roomy) (hsafe : cfg.toConfig.Safe)
    (hdev : Boots dev frames) (hs : (program cfg dev).init s)
    (h : (program cfg dev).run s ls = some t)
    (hend : (cfg.deadline + 1) * (slotSteps cfg.numCpus + 1) ≤ ls.length ∨
      ∀ l, (program cfg dev).step t l = none) :
    t.os.finished.Perm (List.range cfg.ldProcesses.length) ∧
      ∀ p, p < cfg.ldProcesses.length → t.os.executed p = cfg.code p := by
  have hledger := program_ledger hsafe hdev ⟨s, ls, hs, h⟩
  have hcpus : 0 < cfg.withMemory.numCpus := hn
  have hroomy : cfg.withMemory.Roomy := ⟨hroom.room, hroom.lower⟩
  have hinit : (simulator cfg.withMemory).init s := ⟨bootMem dev, hs⟩
  have hstep : (simulator cfg.withMemory).step = (program cfg dev).step := rfl
  have hrun : (simulator cfg.withMemory).run s ls = some t := by
    rw [← h]
    exact Lts.run_congr hstep s ls
  have ht : (simulator cfg.withMemory).Reachable t := ⟨s, ls, hinit, hrun⟩
  have hsound := (reachable_locked ht).sound
  have hall : ∀ p, p < cfg.ldProcesses.length → p ∈ t.os.finished :=
    allFinished_of_end hcpus hroomy (hledger.total hsafe) hinit hrun hend
  constructor
  · exact hsound.finished_perm (reachable_punctual ht).le_length hall
  · intro p hp
    exact hsound.executed_of_finished (hall p hp)

/-- **The program completes**, whatever the interleaving, if there is a CPU, no queue can overflow
or starve and the programs are safe: a run that is long enough, or that cannot go on, has
reported every process as finished once, each has executed exactly its code, the frames that the
programs ask for are gone, and every byte of the devices is as it was at the start. -/
theorem program_completes (hn : 0 < cfg.numCpus) (hroom : cfg.Roomy) (hsafe : cfg.toConfig.Safe)
    (hdev : Boots dev frames) (hs : (program cfg dev).init s)
    (h : (program cfg dev).run s ls = some t)
    (hend : (cfg.deadline + 1) * (slotSteps cfg.numCpus + 1) ≤ ls.length ∨
      ∀ l, (program cfg dev).step t l = none) :
    t.os.finished.Perm (List.range cfg.ldProcesses.length) ∧
      (∀ p, p < cfg.ldProcesses.length → t.os.executed p = cfg.code p) ∧
      (t.os.mem.dev .mram).freeFpList = Chain.ofList
        (frames.drop (∑ p ∈ Finset.range cfg.ldProcesses.length, cfg.pages p)) ∧
      ∀ d, (t.os.mem.dev d).storage = (dev d).storage := by
  have hledger := program_ledger hsafe hdev ⟨s, ls, hs, h⟩
  obtain ⟨hfinished, hexec⟩ := program_executed hn hroom hsafe hdev hs h hend
  refine ⟨hfinished, hexec, ?_, ?_⟩
  · obtain ⟨vma, rgs, hspace⟩ := hledger.booted.space 0
    have hasked : t.os.asked cfg.ldProcesses.length =
        ∑ p ∈ Finset.range cfg.ldProcesses.length, cfg.pages p := by
      apply Finset.sum_congr rfl
      intro p hp
      rw [hexec p (Finset.mem_range.mp hp)]
      rfl
    rw [← hasked]
    exact hspace.frames_eq
  · have hunused := reachable_unused ((machine_simulates_program cfg dev).reachable ⟨s, ls, hs, h⟩)
    exact hunused.storage fun p ins hins => (hsafe.code p ins hins).not_isMemmap

end Ends

theorem roomy_allocWrite : allocWrite.Roomy where
  room q := (List.length_filter_le _ _).trans (by simp [maxQueueSize])
  lower p hp := by
    obtain rfl : p = 0 := by simpa using hp
    exact Nat.one_ne_zero

theorem safe_allocWrite : allocWrite.toConfig.Safe where
  code p := by
    cases p with
    | zero => exact (by decide : ∀ ins ∈ allocWrite.code 0, ins.Safe)
    | succ p => exact fun ins hins => absurd hins List.not_mem_nil
  prio p hp := by
    obtain rfl : p = 0 := by simpa using hp
    exact (by decide : 1 < maxPrio)

/-- The process is loaded in slot 0, allocates in slot 1, writes in slot 2 and is reported in
slot 3. -/
def allocWriteRun : List (SimLabel 1) :=
  let cpu := .cpu ⟨0, Nat.one_pos⟩
  List.replicate 5 .loader ++ List.replicate 3 cpu ++ List.replicate 9 .timer ++
    List.replicate 3 .loader ++ List.replicate 6 cpu ++ List.replicate 9 .timer ++
    List.replicate 5 cpu ++ List.replicate 8 .timer ++ List.replicate 5 cpu ++
    List.replicate 6 .timer ++ mainRun

theorem program_completes_allocWrite :
    ∃ t, (program allocWrite (freshDevs 768)).run (Simulator.init 1 (bootMem (freshDevs 768)))
        allocWriteRun = some t ∧
      t.os.finished.Perm (List.range 1) ∧
      (∀ p, p < 1 → t.os.executed p = allocWrite.code p) ∧
      (t.os.mem.dev .mram).freeFpList = Chain.ofList
        ((Memphy.allFrames 3).drop (∑ p ∈ Finset.range 1, allocWrite.pages p)) ∧
      ∀ d, (t.os.mem.dev d).storage = (freshDevs 768 d).storage := by
  have hrun : (((program allocWrite (freshDevs 768)).run
      (Simulator.init 1 (bootMem (freshDevs 768))) allocWriteRun).any
      fun t => t.main = .returned) = true := by decide +kernel
  obtain ⟨t, ht, hmain⟩ := (Option.any_eq_true _ _).mp hrun
  have hjoin : Joined t :=
    reachable_joined ((simulator_simulates_program allocWrite (freshDevs 768)).reachable
      ⟨_, _, rfl, ht⟩)
  exact ⟨t, ht, program_completes Nat.one_pos roomy_allocWrite safe_allocWrite
    boots_three rfl ht (Or.inr (hjoin.stuck (of_decide_eq_true hmain)))⟩

end SimOs.Os
