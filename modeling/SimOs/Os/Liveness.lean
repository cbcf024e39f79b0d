import SimOs.Os.Makespan

/-!
# The program does not hang before the work is done

Until `main` returns some thread can always make a step: a timer that cannot move waits for a
device whose owner works or may return, and a timer that has exited leaves `main` free to
go on.  And the threads do not go round in circles: between two ticks each of them gets
only so far, so a long run is one in which many slots have passed.  With the bound on the
slots this gives total correctness of the simulation.

This needs that `run` is always defined: no `killall`, priorities in range, and an effect for
every other instruction.

## Main definitions

* `Config.Total`: `run` is always defined.
* `deadlock_free`: the program is stuck only when `main` has returned.
* `Simulator.rank`, `clock_advances`: how many steps a slot can take.
* `total_correctness`: every run that is long enough, or cannot go on, has finished all processes.
-/

namespace SimOs.Os

open SimOs.Sched World Simulator

universe u
variable {μ : Type u} {cfg : Setup μ} {n : ℕ}

/-- Every instruction of every process has an effect on `mem`, and every priority a queue. -/
structure Config.Total (cfg : Config μ) (mem : μ) : Prop where
  exec : ∀ p, ∀ ins ∈ cfg.code p, (cfg.exec p ins mem).isSome
  killall : ∀ p, ∀ ins ∈ cfg.code p, ¬ ins.IsKillall
  prio : ∀ p, p < cfg.ldProcesses.length → cfg.prio p < maxPrio

/-- A process that calculates has an effect and a queue. -/
theorem total_oneCalc (n : ℕ) : (oneCalc n).Total () where
  exec _ _ _ := rfl
  killall p ins hins := by
    cases p with
    | zero =>
        obtain rfl := List.mem_singleton.mp hins
        exact fun hkill => by cases hkill.1
    | succ p => cases hins
  prio p hp := by
    obtain rfl : p = 0 := by simpa using hp
    exact (by decide : 1 < maxPrio)

/-! ## Threads that can make a step -/

/-- A CPU that is about to use the process it holds has one. -/
def Armed (w : World μ n) : Prop :=
  ∀ i, (w.cpu i).line = .putRunning ∨ (w.cpu i).line = .putReady ∨ (w.cpu i).line = .run →
    (w.cpu i).proc ≠ none

theorem Armed.step {c : Config μ} {w v : World μ n} {l : Label n} (h : Armed w)
    (hstep : osStep c w l = some v) : Armed v := by
  intro i hline
  by_cases hl : l = .cpu i
  · subst hl
    have hlines := cpuStep_lines hstep
    rcases hcpu : w.cpu i with ⟨line, proc, t⟩
    rw [hcpu] at hlines
    cases hlines with
    | load =>
        rw [cpu_setCpu_self] at hline
        cases hr : (getProc c.prio w.sched).1 <;> simp [hr] at hline
    | checkEmpty =>
        rw [cpu_setCpu_self] at hline
        cases hd : w.done <;> simp [hd] at hline
    | headOver p => simp
    | putRunning p => simp
    | check p => simp
    | _ =>
        rw [cpu_setCpu_self] at hline
        simp at hline
  · rw [osStep_cpu_of_ne hl hstep] at hline ⊢
    exact h i hline

theorem reachable_armed {c : Config μ} {w : World μ c.numCpus} (h : (osSystem c).Reachable w) :
    Armed w := by
  refine h.invariant (P := Armed) ?_ fun _ _ _ hw hstep => hw.step hstep
  rintro w ⟨mem, rfl⟩ i hline
  simp [World.init] at hline

/-- `run` is defined. -/
theorem run_isSome {c : Config μ} {w : World μ n} (hc : c.Total w.mem) (p : ℕ) :
    (run c w p).isSome := by
  rw [run]
  split
  · rfl
  · next ins hins =>
      have hcode := List.mem_of_getElem? hins
      rw [if_neg (hc.killall p ins hcode), Option.isSome_map]
      exact hc.exec p ins hcode

/-- A process finds a queue for its priority. -/
theorem putMlqProc_isSome {prio : ℕ → ℕ} {s : Sched ℕ} {p : ℕ} (h : prio p < maxPrio) :
    (putMlqProc prio s p).isSome := by
  rw [putMlqProc, if_pos h]
  rfl

/-- **A CPU** that has not exited can make a step. -/
theorem cpuStep_isSome {c : Config μ} {w : World μ n} (hc : c.Total w.mem) (hw : Sound c w)
    (harmed : Armed w) (hlen : w.ld.i ≤ c.ldProcesses.length) {i : Fin n}
    (hline : (w.cpu i).line ≠ .exited) : (cpuStep c w i).isSome := by
  have hprio : ∀ p, (w.cpu i).current = some p → c.prio p < maxPrio := fun p hcur =>
    hc.prio p ((hw.owned_lt p (mem_owned_of_current hcur)).trans_le hlen)
  have harm := harmed i
  rw [cpuStep]
  rcases hcpu : w.cpu i with ⟨line, proc, t⟩
  rw [hcpu] at hline harm hprio
  cases line with
  | head =>
      cases proc with
      | none => rfl
      | some p => simp only; split <;> [rfl; (split <;> rfl)]
  | check => cases proc <;> rfl
  | putRunning =>
      cases proc with
      | none => exact absurd rfl (harm (Or.inl rfl))
      | some p => rfl
  | putReady =>
      cases proc with
      | none => exact absurd rfl (harm (Or.inr (Or.inl rfl)))
      | some p =>
          simp only [Option.bind_some, Option.isSome_map]
          exact putMlqProc_isSome (hprio p rfl)
  | run =>
      cases proc with
      | none => exact absurd rfl (harm (Or.inr (Or.inr rfl)))
      | some p =>
          simp only [Option.bind_some, Option.isSome_map]
          exact run_isSome hc p
  | load | reload | slot | detach => rfl
  | exited => exact absurd rfl hline

/-- **The loader** can make a step if it has not exited. -/
theorem ldStep_isSome {s : Simulator μ n} (hc : cfg.Total s.os.mem) (h : Punctual cfg s)
    (hline : s.os.ld.line ≠ .exited) : (ldStep cfg.toConfig s.os).isSome := by
  rw [Punctual] at h
  rw [ldStep]
  cases hl : s.os.ld.line <;> simp only [hl] at h
  case head => simp only; split <;> rfl
  case addReady =>
    simp only [Option.isSome_map]
    exact putMlqProc_isSome (hc.prio _ h.2)
  case wait | addRunning | slot | detach => rfl
  case exited => exact absurd hl hline

/-- A thread that works can call `next_slot`, and one that was released can return. -/
theorem nextSlot_isSome {s : Simulator μ n} {k : ℕ} (hk : k < n + 1)
    {back : World μ n → Option (World μ n)} (hback : (back s.os).isSome)
    (hphase : (s.timer.dev k).phase = .working ∨
      (s.timer.dev k).phase = .waiting ∧ (s.timer.dev k).done = false) :
    (nextSlot s k back).isSome := by
  rw [nextSlot]
  rcases hphase with hphase | ⟨hphase, hdone⟩
  · rw [if_pos hphase, Option.isSome_map, Timer.step, if_pos ⟨hk, hphase⟩]
    rfl
  · obtain ⟨w, hw⟩ := Option.isSome_iff_exists.mp hback
    rw [if_neg (by simp [hphase]), Timer.step, if_pos ⟨hk, hphase, hdone⟩, Option.bind_some, hw]
    rfl

theorem detachEvent_isSome {s : Simulator μ n} {k : ℕ} (hk : k < n + 1)
    {exit : World μ n → Option (World μ n)} (hexit : (exit s.os).isSome)
    (hphase : (s.timer.dev k).phase = .working) : (detachEvent s k exit).isSome := by
  obtain ⟨w, hw⟩ := Option.isSome_iff_exists.mp hexit
  rw [detachEvent, Timer.step, if_pos ⟨hk, hphase⟩, Option.bind_some, hw]
  rfl

/-- What is known of the states of a configuration for which `run` is defined. -/
structure Ready (cfg : Setup μ) (s : Simulator μ n) : Prop where
  locked : Locked cfg s
  punctual : Punctual cfg s
  armed : Armed s.os
  joined : Joined s

theorem reachable_ready {s : Simulator μ cfg.numCpus} (h : (simulator cfg).Reachable s) :
    Ready cfg s where
  locked := reachable_locked h
  punctual := reachable_punctual h
  armed := reachable_armed (reachable_os h)
  joined := reachable_joined h

namespace Ready
variable {s : Simulator μ n}

/-- **The owner of a CPU's device** can make a step if it works or was released. -/
theorem cpuThread_isSome (h : Ready cfg s) (hc : cfg.Total s.os.mem) {i : Fin n}
    (hphase : (s.cpuId i).phase = .working ∨
      (s.cpuId i).phase = .waiting ∧ (s.cpuId i).done = false) : (cpuThread cfg s i).isSome := by
  have hexited : (s.os.cpu i).line ≠ .exited := by
    intro hline
    have hdet := (h.locked.tied.detached i).mpr hline
    rcases hphase with hp | ⟨hp, -⟩ <;> cases hp.symm.trans hdet
  have hsome := cpuStep_isSome hc h.locked.sound h.armed h.punctual.le_length hexited
  rw [cpuThread]
  split
  · exact nextSlot_isSome (cpuDev_lt i) hsome hphase
  · next hline =>
      refine detachEvent_isSome (cpuDev_lt i) hsome (hphase.resolve_right fun hwait => ?_)
      cases (h.locked.tied.waiting i hwait.1).symm.trans hline
  · rwa [Option.isSome_map]

/-- **The owner of the loader's device** can make a step if it works or was released. -/
theorem ldThread_isSome (h : Ready cfg s) (hc : cfg.Total s.os.mem)
    (hphase : s.ldId.phase = .working ∨ s.ldId.phase = .waiting ∧ s.ldId.done = false) :
    (ldThread cfg s).isSome := by
  have hexited : s.os.ld.line ≠ .exited := by
    intro hline
    have hdet := h.locked.tied.ldDetached.mpr hline
    rcases hphase with hp | ⟨hp, -⟩ <;> cases hp.symm.trans hdet
  have hsome := ldStep_isSome hc h.punctual hexited
  rw [ldThread]
  split
  · next hline =>
      split
      · rwa [Option.isSome_map]
      · refine nextSlot_isSome (ldDev_lt n) ?_ hphase
        rw [osStep, if_pos hline]
        rfl
  · exact nextSlot_isSome (ldDev_lt n) hsome hphase
  · next hline =>
      refine detachEvent_isSome (ldDev_lt n) hsome (hphase.resolve_right fun hwait => ?_)
      rcases h.locked.tied.ldWaiting hwait.1 with hl | hl <;> cases hl.symm.trans hline
  · rwa [Option.isSome_map]

/-- **`main`** can make a step if all threads have exited, and the timer with them. -/
theorem mainThread_isSome (hstop : s.os.Stopped) (hld : s.os.ld.line = .exited)
    (hpc : s.timer.pc = .exited) (hmain : s.main ≠ .returned) : (mainThread s).isSome := by
  rw [mainThread]
  cases hline : s.main with
  | joinCpu k =>
      simp only
      split
      · next hk =>
          rw [if_pos (hstop ⟨k, hk⟩)]
          rfl
      · rfl
  | joinLd => simp [hld]
  | stopTimer => rfl
  | joinTimer => simp [hpc]
  | freeDevs => simp only; split <;> rfl
  | returned => exact absurd hline hmain

end Ready

/-- `timer_stop` is set by `main` alone, when all threads have exited. -/
def Halting (s : Simulator μ n) : Prop :=
  s.timer.timerStop = true → s.os.Stopped ∧ s.os.ld.line = .exited

theorem Halting.step {s t : Simulator μ n} {l : SimLabel n} (h : Halting s) (hjoin : Joined s)
    (hstep : simStep cfg s l = some t) : Halting t := by
  have hkeep : ∀ {u : Simulator μ n}, u.timer.timerStop = s.timer.timerStop →
      (s.os.Stopped ∧ s.os.ld.line = .exited → u.os.Stopped ∧ u.os.ld.line = .exited) →
      Halting u := fun hstop hall hu => hall (h (hstop ▸ hu))
  cases simStep_cases hstep with
  | timer u hu =>
      refine hkeep ?_ id
      rcases Timer.timerRoutine_cases hu with ⟨pc, rfl⟩ | ⟨_, _, -, rfl⟩ | ⟨_, _, _, -, -, rfl⟩ <;>
        rfl
  | cpu i w _ _ hw =>
      exact hkeep rfl fun hall => absurd (hall.1 i) (cpuStep_line_ne_exited hw)
  | cpuAnnounce i hline _ => exact hkeep rfl id
  | cpuReturn i hline _ _ =>
      exact hkeep rfl fun hall => by cases hline.symm.trans (hall.1 i)
  | cpuDetach i hline _ =>
      exact hkeep rfl fun hall => by cases hline.symm.trans (hall.1 i)
  | ld w _ _ _ hw =>
      refine hkeep rfl fun hall => ?_
      have hld := ldStep_lines hw
      rw [hall.2] at hld
      cases hld
  | ldAnnounce _ _ => exact hkeep rfl id
  | ldReturn hline _ _ => exact hkeep rfl fun hall => by cases hline.symm.trans hall.2
  | ldAgain _ _ _ => exact hkeep rfl id
  | ldDetach hline _ => exact hkeep rfl fun hall => by cases hline.symm.trans hall.2
  | main _ ht =>
      obtain ⟨hos, htimer | ⟨hmain, -⟩⟩ := mainThread_frame ht
      · refine hkeep (by rw [htimer]) fun hall => ?_
        rw [hos]
        exact hall
      · intro _
        rw [hos]
        rw [Joined, hmain] at hjoin
        exact ⟨hjoin.1, hjoin.2.1⟩

theorem reachable_halting {s : Simulator μ cfg.numCpus} (h : (simulator cfg).Reachable s) :
    Halting s := by
  refine h.invariant_of ?_ fun s _ _ hs hP hstep => hP.step (reachable_joined hs) hstep
  rintro s ⟨mem, rfl⟩ hstop
  cases hstop

/-- Until `main` returns some thread can make a step. -/
theorem exists_simStep {s : Simulator μ cfg.numCpus} (hc : cfg.Total s.os.mem)
    (h : (simulator cfg).Reachable s) (hmain : s.main ≠ .returned) :
    ∃ l, (simStep cfg s l).isSome := by
  have hready := reachable_ready h
  have hlock := hready.locked
  cases htimer : Timer.timerRoutine (cfg.numCpus + 1) s.timer with
  | some u =>
      refine ⟨.timer, ?_⟩
      simp only [simStep, Timer.step, htimer, Option.map_some, Option.isSome_some]
  | none =>
      rcases hlock.timer.blocked htimer with hpc | ⟨k, hk, hdone, hphase⟩
      · -- The timer has exited: so have all threads, and `main` can go on.
        refine ⟨.main, ?_⟩
        cases hstop : s.timer.timerStop with
        | true =>
            obtain ⟨hall, hld⟩ := reachable_halting h hstop
            exact Ready.mainThread_isSome hall hld hpc hmain
        | false =>
            have hpos := hlock.timer.pos
            simp only [Timer.PosOk, hpc] at hpos
            have hdet := hpos hstop
            refine Ready.mainThread_isSome (fun i => ?_) ?_ hpc hmain
            · exact (hlock.tied.detached i).mp (hdet _ (cpuDev_lt i))
            · exact hlock.tied.ldDetached.mp (hdet _ (ldDev_lt _))
      · -- The timer waits for a device whose owner can make a step.
        have hgo := hphase.imp id fun hwait => And.intro hwait hdone
        rcases eq_ldDev_or_cpuDev hk with rfl | ⟨i, rfl⟩
        · exact ⟨.loader, hready.ldThread_isSome hc hgo⟩
        · exact ⟨.cpu i, hready.cpuThread_isSome hc hgo⟩

/-- When all threads have exited, and `main` with them, nothing can move. -/
theorem Joined.stuck {s : Simulator μ n} (h : Joined s) (hmain : s.main = .returned)
    (l : SimLabel n) : simStep cfg s l = none := by
  rw [Joined, hmain] at h
  obtain ⟨hstop, hld, hpc, -⟩ := h
  cases l with
  | timer => simp [simStep, Timer.step, Timer.timerRoutine, hpc]
  | cpu i => simp [simStep, cpuThread, cpuStep, hstop i]
  | loader => simp [simStep, ldThread, ldStep, hld]
  | main => simp [simStep, mainThread, hmain]

theorem returned_of_stuck {s : Simulator μ cfg.numCpus} (hc : cfg.Total s.os.mem)
    (h : (simulator cfg).Reachable s) (hstuck : ∀ l, simStep cfg s l = none) :
    s.main = .returned := by
  by_contra hmain
  obtain ⟨l, hl⟩ := exists_simStep hc h hmain
  rw [hstuck l] at hl
  cases hl

/-- **No deadlock**: the program is stuck only when `main` has returned, whatever the
interleaving. -/
theorem deadlock_free {s : Simulator μ cfg.numCpus} (hc : cfg.Total s.os.mem)
    (h : (simulator cfg).Reachable s) :
    (∀ l, simStep cfg s l = none) ↔ s.main = .returned := by
  constructor
  · exact returned_of_stuck hc h
  · exact (reachable_joined h).stuck

theorem deadlock_free_oneCalc :
    ∃ s, (simulator (oneCalc 1)).Reachable s ∧ s.os.finished = [0] ∧
      ((∀ l, simStep (oneCalc 1) s l = none) ↔ s.main = .returned) := by
  have hrun : (((simulator (oneCalc 1)).run (Simulator.init 1 ()) oneCpuRun).any fun s =>
      s.os.finished = [0]) = true := by decide +kernel
  obtain ⟨s, hs, hfin⟩ := (Option.any_eq_true _ _).mp hrun
  have hreach : (simulator (oneCalc 1)).Reachable s := ⟨_, _, ⟨(), rfl⟩, hs⟩
  exact ⟨s, hreach, of_decide_eq_true hfin, deadlock_free (total_oneCalc 1) hreach⟩

/-! ## How many steps a slot can take -/

/-- The steps the timer can make before the next tick. -/
def timerRank (n : ℕ) : Timer.TimerPc → ℕ
  | .release k _ _ => (n + 1 - k) + n + 4
  | .top => n + 3
  | .wait k _ _ => (n + 1 - k) + 1
  | .tick _ _ => 0
  | .exited => 0

/-- The steps a CPU can make before the next tick, from its line, and in `next_slot` from
whether it is still to be released into the slot or to announce it. -/
def cpuLineRank (late working : Bool) : CpuLine → ℕ
  | .slot => if late then 9 else if working then 1 else 0
  | .head => 8
  | .load => 7
  | .putRunning => 6
  | .putReady => 5
  | .reload => 4
  | .check => 3
  | .run => 2
  | .detach => 1
  | .exited => 0

/-- The steps CPU `i` can make before the next tick. -/
def cpuRank (s : Simulator μ n) (i : Fin n) : ℕ :=
  cpuLineRank ((s.cpuId i).returned < s.timer.time) ((s.cpuId i).phase = .working)
    (s.os.cpu i).line

/-- The steps the loader can make before the next tick, from its line. -/
def ldLineRank (late working : Bool) : LdLine → ℕ
  | .slot => if late then 7 else if working then 2 else 0
  | .wait => if late then 7 else if working then 5 else 0
  | .head => 6
  | .addRunning => 4
  | .addReady => 3
  | .detach => 1
  | .exited => 0

/-- The steps the loader can make before the next tick. -/
def ldRank (s : Simulator μ n) : ℕ :=
  ldLineRank (s.ldId.returned < s.timer.time) (s.ldId.phase = .working) s.os.ld.line

/-- The steps `main` can make. -/
def mainRank (s : Simulator μ n) : ℕ :=
  match s.main with
  | .joinCpu k => (n - k) + n + 7
  | .joinLd => n + 6
  | .stopTimer => n + 5
  | .joinTimer => n + 4
  | .freeDevs => s.devList.length + 1
  | .returned => 0

/-- The steps all threads can make before the next tick. -/
def Simulator.rank (s : Simulator μ n) : ℕ :=
  timerRank n s.timer.pc + (∑ i, cpuRank s i) + ldRank s + mainRank s

/-- The largest rank after a tick. -/
def slotSteps (n : ℕ) : ℕ := 13 * n + 19

theorem cpuRank_le (s : Simulator μ n) (i : Fin n) : cpuRank s i ≤ 9 := by
  rw [cpuRank]
  generalize (s.os.cpu i).line = line
  cases line <;> simp only [cpuLineRank] <;> (try split) <;> (try split) <;> omega

theorem ldRank_le (s : Simulator μ n) : ldRank s ≤ 7 := by
  rw [ldRank]
  generalize s.os.ld.line = line
  cases line <;> simp only [ldLineRank] <;> (try split) <;> (try split) <;> omega

theorem mainRank_le {s : Simulator μ n} (h : s.devList.length ≤ n + 1) :
    mainRank s ≤ 2 * n + 7 := by
  rw [mainRank]
  split <;> omega

theorem timerRank_le (n : ℕ) (pc : Timer.TimerPc) : timerRank n pc ≤ 2 * n + 5 := by
  cases pc <;> simp only [timerRank] <;> omega

theorem rank_le {s : Simulator μ n} (h : s.devList.length ≤ n + 1) : s.rank ≤ slotSteps n := by
  have hcpu : ∑ i, cpuRank s i ≤ n * 9 := calc
    ∑ i, cpuRank s i ≤ ∑ _i : Fin n, 9 := Finset.sum_le_sum fun i _ => cpuRank_le s i
    _ = n * 9 := by simp
  have hld := ldRank_le s
  have hmain := mainRank_le h
  have htimer := timerRank_le n s.timer.pc
  rw [Simulator.rank, slotSteps]
  omega

/-! ## Every step lowers the rank -/

/-- A step of the timer, other than the tick. -/
theorem timerRank_step {s t : Timer.State} (h : Timer.timerRoutine (n + 1) s = some t)
    (htime : t.time = s.time) : timerRank n t.pc + 1 ≤ timerRank n s.pc := by
  cases hpc : s.pc <;> simp only [Timer.timerRoutine, hpc] at h
  case top =>
    obtain rfl := Option.some.inj h
    cases s.timerStop <;> simp [timerRank]
  case wait k fsh event =>
    split at h
    · obtain ⟨-, h⟩ := Option.ite_none_right_eq_some.mp h
      obtain rfl := Option.some.inj h
      simp only [timerRank]
      omega
    · obtain rfl := Option.some.inj h
      simp [timerRank]
  case tick fsh event =>
    obtain rfl := Option.some.inj h
    simp at htime
  case release k fsh event =>
    split at h
    · obtain rfl := Option.some.inj h
      simp only [timerRank]
      omega
    · obtain rfl := Option.some.inj h
      by_cases heq : fsh = event
      · simp only [heq, if_true, timerRank]
        omega
      · simp only [if_neg heq, timerRank]
        omega
  case exited => cases h

theorem cpuRank_congr {s t : Simulator μ n} {i : Fin n} (hcpu : t.os.cpu i = s.os.cpu i)
    (hret : (t.cpuId i).returned = (s.cpuId i).returned)
    (hphase : (t.cpuId i).phase = (s.cpuId i).phase) (htime : t.timer.time = s.timer.time) :
    cpuRank t i = cpuRank s i := by
  rw [cpuRank, cpuRank, hcpu, hret, hphase, htime]

theorem ldRank_congr {s t : Simulator μ n} (hld : t.os.ld.line = s.os.ld.line)
    (hret : t.ldId.returned = s.ldId.returned) (hphase : t.ldId.phase = s.ldId.phase)
    (htime : t.timer.time = s.timer.time) : ldRank t = ldRank s := by
  rw [ldRank, ldRank, hld, hret, hphase, htime]

/-- One CPU moves on. -/
theorem sum_cpuRank_lt {s t : Simulator μ n} {i : Fin n} (hi : cpuRank t i < cpuRank s i)
    (hother : ∀ j, j ≠ i → cpuRank t j = cpuRank s j) :
    ∑ j, cpuRank t j < ∑ j, cpuRank s j := by
  refine Finset.sum_lt_sum (fun j _ => ?_) ⟨i, Finset.mem_univ i, hi⟩
  rcases eq_or_ne j i with rfl | hj
  · exact hi.le
  · exact (hother j hj).le

/-- A CPU that works moves down the lines. -/
theorem cpuStep_rank {c : Config μ} {w v : World μ n} {i : Fin n} (h : cpuStep c w i = some v)
    (hslot : (w.cpu i).line ≠ .slot) :
    cpuLineRank false true (v.cpu i).line < cpuLineRank false true (w.cpu i).line := by
  have hlines := cpuStep_lines h
  rcases hcpu : w.cpu i with ⟨line, proc, t⟩
  rw [hcpu] at hlines hslot
  cases hlines with
  | load =>
      rw [cpu_setCpu_self]
      cases hr : (getProc c.prio w.sched).1 <;> simp [cpuLineRank]
  | checkEmpty =>
      rw [cpu_setCpu_self]
      cases hd : w.done <;> simp [cpuLineRank]
  | slot => exact absurd rfl hslot
  | _ =>
      rw [cpu_setCpu_self]
      simp [cpuLineRank]

/-- A CPU moves on within its slot. -/
theorem cpuRank_cpu {s : Simulator μ n} (h : Locked cfg s) {i : Fin n} {w : World μ n}
    (hslot : (s.os.cpu i).line ≠ .slot) (hw : cpuStep cfg.toConfig s.os i = some w) :
    cpuRank (s.setOs w) i < cpuRank s i := by
  obtain ⟨hphase, hnow⟩ := h.cpu_working hslot (cpuStep_line_ne_exited hw)
  have hrank := cpuStep_rank hw hslot
  simpa [cpuRank, hphase, hnow] using hrank

/-- A loader that works moves down the lines. -/
theorem ldStep_rank {c : Config μ} {w v : World μ n} (h : ldStep c w = some v)
    (hslot : w.ld.line ≠ .slot) :
    ldLineRank false true v.ld.line < ldLineRank false true w.ld.line := by
  have hld := ldStep_lines h
  generalize w.ld.line = line at hld hslot
  cases hld with
  | slot => exact absurd rfl hslot
  | _ => simp [ldLineRank]

/-- The loader moves on within its slot. -/
theorem ldRank_ld {s : Simulator μ n} (h : Locked cfg s) {w : World μ n}
    (hslot : s.os.ld.line ≠ .slot)
    (hwait : s.os.ld.line = .wait → s.ldId.phase = .working)
    (hw : ldStep cfg.toConfig s.os = some w) : ldRank (s.setOs w) < ldRank s := by
  have hphase : s.ldId.phase = .working := by
    cases hphase : s.ldId.phase with
    | working => rfl
    | waiting =>
        rcases h.tied.ldWaiting hphase with hline | hline
        · exact absurd hline hslot
        · exact hphase.symm.trans (hwait hline)
    | detached =>
        have hld := ldStep_lines hw
        rw [h.tied.ldDetached.mp hphase] at hld
        cases hld
  have hnow := (h.timer.working (ldDev_lt n) hphase).1
  have hrank := ldStep_rank hw hslot
  rw [← ldId] at hnow
  simpa [ldRank, hphase, hnow] using hrank

/-- A step of `main`. -/
theorem mainRank_main {s t : Simulator μ n} (hjoin : Joined s) (h : mainThread s = some t) :
    mainRank t < mainRank s := by
  rw [mainThread] at h
  rw [Joined] at hjoin
  rw [mainRank, mainRank]
  cases hline : s.main <;> simp only [hline] at h hjoin ⊢
  case joinCpu k =>
    split at h
    · obtain ⟨-, h⟩ := Option.ite_none_right_eq_some.mp h
      obtain rfl := Option.some.inj h
      simp only
      omega
    · obtain rfl := Option.some.inj h
      simp
  case joinLd =>
    obtain ⟨-, h⟩ := Option.ite_none_right_eq_some.mp h
    obtain rfl := Option.some.inj h
    simp
  case stopTimer =>
    obtain ⟨u, -, rfl⟩ := Option.map_eq_some_iff.mp h
    simp
  case joinTimer =>
    obtain ⟨-, h⟩ := Option.ite_none_right_eq_some.mp h
    obtain rfl := Option.some.inj h
    simp only [hjoin.2.2, length_containers]
    omega
  case freeDevs =>
    split at h
    · obtain rfl := Option.some.inj h
      simp
    · next c rest hlist =>
        obtain rfl := Option.some.inj h
        simp [hlist]
  case returned => cases h

/-- `main` frees containers. -/
theorem mainThread_devList {s t : Simulator μ n} (h : mainThread s = some t) :
    t.devList.length ≤ s.devList.length := by
  rw [mainThread] at h
  split at h
  case h_3 =>
    obtain ⟨u, -, rfl⟩ := Option.map_eq_some_iff.mp h
    exact le_rfl
  case h_5 =>
    split at h <;> obtain rfl := Option.some.inj h
    · exact le_rfl
    · next c rest hlist => simp [hlist]
  all_goals
    repeat' split at h
    all_goals first
      | (obtain rfl := Option.some.inj h; exact le_rfl)
      | cases h

/-- Containers are only ever freed. -/
theorem reachable_devList {s : Simulator μ cfg.numCpus} (h : (simulator cfg).Reachable s) :
    s.devList.length ≤ cfg.numCpus + 1 := by
  refine h.invariant (P := fun s => s.devList.length ≤ cfg.numCpus + 1) ?_ ?_
  · rintro s ⟨mem, rfl⟩
    exact (length_containers cfg.numCpus).le
  · intro s l t hlen hstep
    cases simStep_cases hstep with
    | main _ ht => exact (mainThread_devList ht).trans hlen
    | _ => exact hlen

/-- The devices and `_time` are what the ranks of the threads read of the timer. -/
theorem ranks_congr {s t : Simulator μ n} (hos : t.os = s.os)
    (hret : ∀ k, (t.timer.dev k).returned = (s.timer.dev k).returned)
    (hphase : ∀ k, (t.timer.dev k).phase = (s.timer.dev k).phase)
    (htime : t.timer.time = s.timer.time) :
    (∀ i, cpuRank t i = cpuRank s i) ∧ ldRank t = ldRank s := by
  constructor
  · intro i
    exact cpuRank_congr (by rw [hos]) (hret _) (hphase _) htime
  · exact ldRank_congr (by rw [hos]) (hret _) (hphase _) htime

/-- A step of CPU `i` alone. -/
theorem rank_cpu {s t : Simulator μ n} {i : Fin n} (hpc : t.timer.pc = s.timer.pc)
    (hi : cpuRank t i < cpuRank s i) (hother : ∀ j, j ≠ i → cpuRank t j = cpuRank s j)
    (hld : ldRank t = ldRank s) (hmain : mainRank t = mainRank s) : t.rank + 1 ≤ s.rank := by
  have hsum := sum_cpuRank_lt hi hother
  rw [Simulator.rank, Simulator.rank, hpc, hld, hmain]
  omega

/-- A step of the loader alone. -/
theorem rank_ld {s t : Simulator μ n} (hpc : t.timer.pc = s.timer.pc)
    (hcpu : ∀ i, cpuRank t i = cpuRank s i) (hld : ldRank t < ldRank s)
    (hmain : mainRank t = mainRank s) : t.rank + 1 ≤ s.rank := by
  have hsum : ∑ i, cpuRank t i = ∑ i, cpuRank s i := Finset.sum_congr rfl fun i _ => hcpu i
  rw [Simulator.rank, Simulator.rank, hpc, hsum, hmain]
  omega

/-- **Every step but the tick lowers the rank.** -/
theorem rank_step {s t : Simulator μ n} {l : SimLabel n} (h : Locked cfg s) (hjoin : Joined s)
    (hstep : simStep cfg s l = some t) (htime : t.timer.time = s.timer.time) :
    t.rank + 1 ≤ s.rank := by
  cases simStep_cases hstep with
  | timer u hu =>
      have htimer := timerRank_step hu htime
      obtain ⟨hcpu, hld⟩ := ranks_congr (s := s) (t := s.setTimer u) rfl
        (Timer.returned_timerRoutine hu) (Timer.phase_timerRoutine hu) htime
      have hsum : ∑ i, cpuRank (s.setTimer u) i = ∑ i, cpuRank s i :=
        Finset.sum_congr rfl fun i _ => hcpu i
      rw [Simulator.rank, Simulator.rank, hsum, hld, timer_setTimer]
      change _ + _ + _ + mainRank s + 1 ≤ _
      omega
  | cpu i w hslot hdetach hw =>
      have hcase := cpuStep_cases hw
      refine rank_cpu rfl (cpuRank_cpu h hslot hw) (fun j hj => ?_) ?_ rfl
      · exact cpuRank_congr (hcase.cpu_of_ne hj) rfl rfl rfl
      · exact ldRank_congr (by rw [os_setOs, hcase.ld.1]) rfl rfl rfl
  | cpuAnnounce i hline hphase =>
      obtain ⟨hnow, -⟩ := h.timer.working (cpuDev_lt i) hphase
      rw [← cpuId] at hnow
      refine rank_cpu (i := i) rfl ?_ (fun j hj => ?_) ?_ rfl
      · simp [cpuRank, hline, cpuLineRank, Timer.TimerId.announce, hnow, hphase]
      · exact cpuRank_congr rfl (by simp [hj]) (by simp [hj]) rfl
      · exact ldRank_congr rfl (by simp) (by simp) rfl
  | cpuReturn i hline hphase hdone =>
      have hlate := h.timer.released (cpuDev_lt i) hphase hdone
      rw [← cpuId] at hlate
      refine rank_cpu (i := i) rfl ?_ (fun j hj => ?_) ?_ rfl
      · have hlt : (s.cpuId i).returned < s.timer.time := by omega
        simp [cpuRank, hline, cpuLineRank, hlt]
      · exact cpuRank_congr (by simp [hj]) (by simp [hj]) (by simp [hj]) rfl
      · exact ldRank_congr rfl (by simp) (by simp) rfl
  | cpuDetach i hline hphase =>
      refine rank_cpu (i := i) rfl ?_ (fun j hj => ?_) ?_ rfl
      · simp [cpuRank, hline, cpuLineRank]
      · exact cpuRank_congr (by simp [hj]) (by simp [hj]) (by simp [hj]) rfl
      · exact ldRank_congr rfl (by simp) (by simp) rfl
  | ld w hslot hdetach hstart hw =>
      refine rank_ld rfl (fun i => ?_) (ldRank_ld h hslot (fun hl => (hstart hl).1) hw) rfl
      exact cpuRank_congr (by rw [os_setOs, (ldStep_lines hw).frame.1]) rfl rfl rfl
  | ldAnnounce hline hphase =>
      obtain ⟨hnow, -⟩ := h.timer.working (ldDev_lt n) hphase
      rw [← ldId] at hnow
      refine rank_ld rfl (fun i => cpuRank_congr rfl (by simp) (by simp) rfl) ?_ rfl
      rcases hline with hline | ⟨hline, -⟩ <;>
        simp [ldRank, hline, ldLineRank, Timer.TimerId.announce, hnow, hphase]
  | ldReturn hline hphase hdone =>
      have hlate := h.timer.released (ldDev_lt n) hphase hdone
      rw [← ldId] at hlate
      have hlt : s.ldId.returned < s.timer.time := by omega
      refine rank_ld rfl (fun i => cpuRank_congr rfl (by simp) (by simp) rfl) ?_ rfl
      simp [ldRank, hline, ldLineRank, hlt]
  | ldAgain hline hphase hdone =>
      have hlate := h.timer.released (ldDev_lt n) hphase hdone
      rw [← ldId] at hlate
      have hlt : s.ldId.returned < s.timer.time := by omega
      refine rank_ld rfl (fun i => cpuRank_congr rfl (by simp) (by simp) rfl) ?_ rfl
      have hnow : s.ldId.returned + 1 = s.timer.time := by omega
      simp [ldRank, hline, ldLineRank, Timer.TimerId.wake, hlt, hnow]
  | ldDetach hline hphase =>
      refine rank_ld rfl (fun i => cpuRank_congr rfl (by simp) (by simp) rfl) ?_ rfl
      simp [ldRank, hline, ldLineRank]
  | main _ ht =>
      have hmain := mainRank_main hjoin ht
      have hsame := mainFrame ht
      obtain ⟨hcpu, hld⟩ := ranks_congr hsame.os (fun k => by rw [hsame.dev])
        (fun k => by rw [hsame.dev]) htime
      have hsum : ∑ i, cpuRank t i = ∑ i, cpuRank s i := Finset.sum_congr rfl fun i _ => hcpu i
      rw [Simulator.rank, Simulator.rank, hsum, hld, hsame.pc]
      omega

/-- A run of the program is at most so long. -/
theorem length_le_of_reachable {s t : Simulator μ cfg.numCpus} {ls : List (SimLabel cfg.numCpus)}
    (hs : (simulator cfg).Reachable s) (h : (simulator cfg).run s ls = some t) :
    s.timer.time ≤ t.timer.time ∧
      ls.length + s.timer.time * (slotSteps cfg.numCpus + 1) ≤
        t.timer.time * (slotSteps cfg.numCpus + 1) + slotSteps cfg.numCpus := by
  have hclock := Lts.length_le_of_clock (simulator cfg) (P := (simulator cfg).Reachable)
    (fun s => s.timer.time) Simulator.rank (slotSteps cfg.numCpus) ?_ h hs
  · have hrank := rank_le (reachable_devList hs)
    exact ⟨hclock.1, hclock.2.trans (by omega)⟩
  · intro s l t hs hstep
    have ht := hs.step hstep
    refine ⟨ht, ?_⟩
    rcases simStep_time hstep with htime | ⟨u, fsh, event, rfl, -, htime, -⟩
    · exact Or.inl ⟨htime, rank_step (reachable_locked hs) (reachable_joined hs) hstep htime⟩
    · exact Or.inr ⟨htime, rank_le (reachable_devList ht)⟩

/-- **The clock advances**: in any `slotSteps + 1` steps that the threads make there is a tick,
whatever the interleaving. -/
theorem clock_advances {s t : Simulator μ cfg.numCpus} {ls : List (SimLabel cfg.numCpus)}
    (hs : (simulator cfg).Reachable s) (h : (simulator cfg).run s ls = some t) (k : ℕ)
    (hlen : k * (slotSteps cfg.numCpus + 1) ≤ ls.length) : s.timer.time + k ≤ t.timer.time := by
  have hle := (length_le_of_reachable hs h).2
  have hlt : (s.timer.time + k) * (slotSteps cfg.numCpus + 1) <
      (t.timer.time + 1) * (slotSteps cfg.numCpus + 1) := by
    rw [Nat.add_mul, Nat.add_mul]
    omega
  exact Nat.lt_succ_iff.mp (Nat.lt_of_mul_lt_mul_right hlt)

theorem clock_advances_oneCalc :
    ∃ s, (simulator (oneCalc 1)).run (Simulator.init 1 ()) oneCpuRun = some s ∧
      0 + 1 ≤ s.timer.time := by
  have hrun : ((simulator (oneCalc 1)).run (Simulator.init 1 ()) oneCpuRun).isSome := by
    decide +kernel
  obtain ⟨s, hs⟩ := Option.isSome_iff_exists.mp hrun
  exact ⟨s, hs, clock_advances (.of_init ⟨(), rfl⟩) hs 1 (by decide)⟩

/-- After enough steps the deadline is past. -/
theorem deadline_lt {s t : Simulator μ cfg.numCpus} {ls : List (SimLabel cfg.numCpus)}
    (hs : (simulator cfg).init s) (h : (simulator cfg).run s ls = some t)
    (hlen : (cfg.deadline + 1) * (slotSteps cfg.numCpus + 1) ≤ ls.length) :
    cfg.deadline < t.timer.time := by
  have hle := (length_le_of_reachable (.of_init hs) h).2
  have hlt : (cfg.deadline + 1) * (slotSteps cfg.numCpus + 1) <
      (t.timer.time + 1) * (slotSteps cfg.numCpus + 1) := by
    rw [Nat.add_mul t.timer.time 1, Nat.one_mul]
    omega
  have := Nat.lt_of_mul_lt_mul_right hlt
  omega

/-- A run that is long enough, or cannot go on, has finished all processes. -/
theorem allFinished_of_end (hn : 0 < cfg.numCpus) (hroom : cfg.Roomy)
    {s t : Simulator μ cfg.numCpus} {ls : List (SimLabel cfg.numCpus)} (hc : cfg.Total t.os.mem)
    (hs : (simulator cfg).init s) (h : (simulator cfg).run s ls = some t)
    (hend : (cfg.deadline + 1) * (slotSteps cfg.numCpus + 1) ≤ ls.length ∨
      ∀ l, simStep cfg t l = none) :
    ∀ p, p < cfg.ldProcesses.length → p ∈ t.os.finished := by
  have ht : (simulator cfg).Reachable t := ⟨s, ls, hs, h⟩
  rcases hend with hlen | hstuck
  · exact allFinished_of_deadline hn hroom ht (deadline_lt hs h hlen)
  · have hjoin := reachable_joined ht
    rw [Joined, returned_of_stuck hc ht hstuck] at hjoin
    intro p hp
    exact (completion hn hroom ht hjoin.1).1.mem_iff.mpr (List.mem_range.mpr hp)

/-- **Total correctness**: if there is a CPU, no queue can overflow or starve, every priority has
a queue and every instruction is defined and no `killall`, then every run that is long enough,
or that cannot go on, has reported every process as finished once, and each has executed exactly
its code, whatever the interleaving. -/
theorem total_correctness (hn : 0 < cfg.numCpus) (hroom : cfg.Roomy)
    {s t : Simulator μ cfg.numCpus} {ls : List (SimLabel cfg.numCpus)} (hc : cfg.Total t.os.mem)
    (hs : (simulator cfg).init s) (h : (simulator cfg).run s ls = some t)
    (hend : (cfg.deadline + 1) * (slotSteps cfg.numCpus + 1) ≤ ls.length ∨
      ∀ l, simStep cfg t l = none) :
    t.os.finished.Perm (List.range cfg.ldProcesses.length) ∧
      ∀ p, p < cfg.ldProcesses.length → t.os.executed p = cfg.code p := by
  have ht : (simulator cfg).Reachable t := ⟨s, ls, hs, h⟩
  have hsound := (reachable_locked ht).sound
  have hall := allFinished_of_end hn hroom hc hs h hend
  constructor
  · exact hsound.finished_perm (reachable_punctual ht).le_length hall
  · intro p hp
    exact hsound.executed_of_finished (hall p hp)

theorem total_correctness_oneCalc :
    ∃ s, (simulator (oneCalc 1)).run (Simulator.init 1 ()) (oneCpuRun ++ mainRun) = some s ∧
      s.os.finished.Perm (List.range 1) ∧
      ∀ p, p < 1 → s.os.executed p = (oneCalc 1).code p := by
  have hrun : (((simulator (oneCalc 1)).run (Simulator.init 1 ()) (oneCpuRun ++ mainRun)).any
      fun s => s.main = .returned) = true := by decide +kernel
  obtain ⟨s, hs, hmain⟩ := (Option.any_eq_true _ _).mp hrun
  have hreach : (simulator (oneCalc 1)).Reachable s := ⟨_, _, ⟨(), rfl⟩, hs⟩
  have hjoin : Joined s := reachable_joined hreach
  exact ⟨s, hs, total_correctness Nat.one_pos (roomy_oneCalc 1) (total_oneCalc 1) ⟨(), rfl⟩ hs
    (Or.inr (hjoin.stuck (of_decide_eq_true hmain)))⟩

end SimOs.Os
