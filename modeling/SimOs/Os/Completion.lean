import SimOs.Os.Loading
import SimOs.Os.Stock
import SimOs.Os.Teardown

/-!
# What is done when the program ends

A CPU leaves its loop when `get_proc` returns `NULL` and `done` is set, but it looks at `done`
after `get_proc`.  Without the time slots this would be a race: the loader could add its last
process and set `done` between the two.  The loader calls `next_slot` after each process,
though, and the slot does not end while a CPU is between the two tests.  So the last CPU
leaves only when no process is ready, and no process is ever abandoned.

## Main definitions

* `Gone`: a CPU that will not call `get_proc` again.
* `Drained`: if all CPUs are gone nothing is ready.
* `completion`: what holds when all CPUs have exited.
-/

namespace SimOs.Os

open SimOs.Sched World Simulator

universe u
variable {μ : Type u} {cfg : Setup μ} {n : ℕ}

/-- A CPU that got `NULL` after it had given a process away. -/
def Gone (c : Cpu) : Prop :=
  c.line = .check ∧ c.proc = none ∨ c.line = .detach ∨ c.line = .exited

/-- If all CPUs are gone, nothing is ready, unless the loader has just added a process. -/
def Drained (s : Simulator μ n) : Prop :=
  (∀ i, Gone (s.os.cpu i)) →
    s.os.sched.ready = 0 ∨ s.os.ld.line = .slot ∧ s.ldId.returned = s.timer.time

theorem Gone.line_ne_slot {c : Cpu} (h : Gone c) : c.line ≠ .slot := by
  rcases h with ⟨h, -⟩ | h | h <;> simp [h]

/-- A CPU's own step makes it gone only by a `NULL`. -/
theorem cpuStep_gone {c : Config μ} {w v : World μ n} {i : Fin n} (h : cpuStep c w i = some v)
    (hgone : Gone (v.cpu i)) :
    Gone (w.cpu i) ∧ v.sched = w.sched ∨
      (w.cpu i).line = .reload ∧ (getProc c.prio w.sched).1 = none ∧
        v.sched = (getProc c.prio w.sched).2 := by
  have hline := cpuStep_lines h
  rcases hcpu : w.cpu i with ⟨line, proc, t⟩
  rw [hcpu] at hline
  cases hline with
  | load =>
      rw [cpu_setCpu_self] at hgone
      cases hr : (getProc c.prio w.sched).1 <;> simp [Gone, hr] at hgone
  | reload =>
      rw [cpu_setCpu_self] at hgone
      right
      refine ⟨rfl, ?_, rfl⟩
      simpa [Gone] using hgone
  | checkEmpty => exact Or.inl ⟨Or.inl ⟨rfl, rfl⟩, rfl⟩
  | detach => exact Or.inl ⟨Or.inr (Or.inl rfl), rfl⟩
  | _ =>
      rw [cpu_setCpu_self] at hgone
      simp [Gone] at hgone

/-- A CPU calls `get_proc` again only if it was called before. -/
theorem Stocked.started_of_reload {c : Config μ} {w : World μ n} (h : Stocked c w) {i : Fin n}
    (hline : (w.cpu i).line = .reload) : w.sched.Started := by
  apply h.begun.resolve_right
  intro hidle
  rcases (hidle i).2 with hl | hl <;> cases hl.symm.trans hline

/-- `Drained` looks at the CPUs, at what is ready and at the loader. -/
theorem Drained.congr {s t : Simulator μ n} (h : Drained s) (hcpu : t.os.cpu = s.os.cpu)
    (hready : t.os.sched.ready = s.os.sched.ready)
    (hld : s.os.ld.line = .slot ∧ s.ldId.returned = s.timer.time →
      t.os.ld.line = .slot ∧ t.ldId.returned = t.timer.time) : Drained t := by
  intro hgone
  rw [hcpu] at hgone
  rw [hready]
  exact (h hgone).imp id hld

/-- A step of the timer. -/
theorem Drained.timer {s : Simulator μ n} (h : Drained s) (hlock : Locked cfg s) (hn : 0 < n)
    {u : Timer.State} (hu : Timer.timerRoutine (n + 1) s.timer = some u) :
    Drained (s.setTimer u) := by
  rcases Timer.time_timerRoutine hu with htime | ⟨-, -, fsh, event, hpc⟩
  · refine h.congr rfl rfl fun hld => ⟨hld.1, ?_⟩
    rw [timer_setTimer, htime]
    exact (Timer.returned_timerRoutine hu _).trans hld.2
  · intro hgone
    -- At the tick a CPU that is gone has exited, and then the loader is done.
    have hexited : (s.os.cpu ⟨0, hn⟩).line = .exited := by
      rcases hlock.timer.through hpc (cpuDev_lt ⟨0, hn⟩) with hdet | ⟨hwait, -⟩
      · exact (hlock.tied.detached _).mp hdet
      · exact absurd (hlock.tied.waiting _ hwait) (hgone ⟨0, hn⟩).line_ne_slot
    have hdone := (hlock.tied.leaving _ (Or.inr hexited)).1
    rcases h hgone with hready | ⟨hline, -⟩
    · exact Or.inl hready
    · rcases hlock.retired hdone with hl | hl <;> cases hl.symm.trans hline

/-- A CPU moves on within its slot. -/
theorem Drained.cpu {s : Simulator μ n} (h : Drained s) (hlock : Locked cfg s)
    (hroom : cfg.Roomy) (hstock : Stocked cfg.toConfig s.os) {i : Fin n} {w : World μ n}
    (hw : cpuStep cfg.toConfig s.os i = some w) : Drained (s.setOs w) := by
  intro hgone
  have hcase := cpuStep_cases hw
  rcases cpuStep_gone hw (hgone i) with ⟨hbefore, hsched⟩ | ⟨hline, hnone, hsched⟩
  · rw [os_setOs, hsched, hcase.ld.1]
    refine h fun j => ?_
    rcases eq_or_ne j i with rfl | hne
    · exact hbefore
    · exact hcase.cpu_of_ne hne ▸ hgone j
  · left
    rw [os_setOs, hsched, ready_getProc_none hlock.sound.counters hnone]
    exact hstock.ready_of_none hroom hlock.sound (hstock.started_of_reload hline) hnone

/-- The loader moves on within its slot. -/
theorem Drained.ld {s : Simulator μ n} (h : Drained s) (hlock : Locked cfg s) {w : World μ n}
    (hslot : s.os.ld.line ≠ .slot) (hw : ldStep cfg.toConfig s.os = some w) :
    Drained (s.setOs w) := by
  have hld := ldStep_lines hw
  intro hgone
  rw [os_setOs, hld.frame.1] at hgone
  have hready : s.os.sched.ready = 0 := (h hgone).resolve_right fun hl => hslot hl.1
  cases hline : s.os.ld.line <;> rw [hline] at hld
  case addReady =>
    have hnow := (hlock.ld_working hslot (by simp [hline]) (by simp [hline])).2
    cases hld
    exact Or.inr ⟨rfl, hnow⟩
  case head => cases hld <;> exact Or.inl hready
  case addRunning =>
    cases hld
    exact Or.inl ((ready_enlistRunning _ _).trans hready)
  case slot => exact absurd hline hslot
  case wait | detach =>
    cases hld
    exact Or.inl hready
  case exited => cases hld

/-- **One step of the program**: the last CPU leaves when nothing is ready. -/
theorem Drained.step {s t : Simulator μ n} {l : SimLabel n} (h : Drained s)
    (hlock : Locked cfg s) (hn : 0 < n) (hroom : cfg.Roomy) (hstock : Stocked cfg.toConfig s.os)
    (hstep : simStep cfg s l = some t) : Drained t := by
  -- A thread that comes back from `next_slot` is in a later slot than before.
  have hlater : ∀ {d : Timer.TimerId}, d.phase = .waiting → d.done = false → s.ldId = d →
      s.ldId.returned ≠ s.timer.time := by
    rintro d hphase hdone rfl hnow
    have := hlock.timer.released (ldDev_lt n) hphase hdone
    rw [ldId] at hnow
    omega
  cases simStep_cases hstep with
  | timer u hu => exact h.timer hlock hn hu
  | cpu i w hslot hdetach hw => exact h.cpu hlock hroom hstock hw
  | cpuAnnounce i hline hphase =>
      intro hgone
      exact absurd hline (hgone i).line_ne_slot
  | cpuReturn i hline hphase hdone =>
      intro hgone
      have := hgone i
      simp [Gone] at this
  | cpuDetach i hline hphase =>
      intro hgone
      simp only [ldId_setDev_cpuDev, time_setDev]
      refine h fun j => ?_
      rcases eq_or_ne j i with rfl | hne
      · exact Or.inr (Or.inl hline)
      · have := hgone j
        rwa [os_setDev, os_setOs, cpu_setCpu_of_ne _ hne] at this
  | ld w hslot hdetach hstart hw => exact h.ld hlock hslot hw
  | ldAnnounce hline hphase =>
      exact h.congr rfl rfl fun hld => ⟨hld.1, by rw [ldId_setDev_self]; exact hld.2⟩
  | ldReturn hline hphase hdone =>
      exact h.congr rfl rfl fun hld => absurd hld.2 (hlater hphase hdone rfl)
  | ldAgain hline hphase hdone =>
      exact h.congr rfl rfl fun hld => absurd hld.2 (hlater hphase hdone rfl)
  | ldDetach hline hphase =>
      exact h.congr rfl rfl fun hld => by cases hld.1.symm.trans hline
  | main t ht =>
      have hsame := mainFrame ht
      refine h.congr (by rw [hsame.os]) (by rw [hsame.os]) fun hld => ⟨?_, ?_⟩
      · rw [hsame.os]
        exact hld.1
      · rw [hsame.ldId, hsame.time]
        exact hld.2

theorem reachable_drained (hn : 0 < cfg.numCpus) (hroom : cfg.Roomy)
    {s : Simulator μ cfg.numCpus} (h : (simulator cfg).Reachable s) : Drained s := by
  refine h.invariant_of ?_ fun s _ _ hs hP hstep =>
    hP.step (reachable_locked hs) hn hroom (reachable_stocked hroom (reachable_os hs)) hstep
  rintro s ⟨mem, rfl⟩ hgone
  have := hgone ⟨0, hn⟩
  simp [Gone, Simulator.init, World.init] at this

/-- **When all CPUs have exited everything is done**, whatever the interleaving: if there is a CPU
and no queue can overflow or starve, every process of the configuration has been loaded, has
been reported as finished once, and has executed exactly its code. -/
theorem completion (hn : 0 < cfg.numCpus) (hroom : cfg.Roomy) {s : Simulator μ cfg.numCpus}
    (h : (simulator cfg).Reachable s) (hstop : s.os.Stopped) :
    s.os.finished.Perm (List.range cfg.ldProcesses.length) ∧
      ∀ p, p < cfg.ldProcesses.length → s.os.executed p = cfg.code p := by
  have hlock := reachable_locked h
  have hstock := reachable_stocked hroom (reachable_os h)
  have hdone := (hlock.tied.leaving ⟨0, hn⟩ (Or.inr (hstop _))).1
  have hi := ((reachable_punctual h).of_done hlock hdone).1
  have hready : s.os.sched.ready = 0 := by
    rcases reachable_drained hn hroom h (fun i => Or.inr (Or.inr (hstop i))) with hr | ⟨hl, -⟩
    · exact hr
    · rcases hlock.retired hdone with hl' | hl' <;> cases hl'.symm.trans hl
  have hcurrent : s.os.current = 0 := by
    refine Finset.sum_eq_zero fun i _ => ?_
    have hproc := (hlock.tied.leaving i (Or.inr (hstop i))).2
    rw [Cpu.current, hstop i]
    simp [hproc]
  have hfin : ∀ p, p < cfg.ldProcesses.length → p ∈ s.os.finished := by
    intro p hp
    apply (hstock.kept p (hi ▸ hp)).resolve_left
    rw [World.owned, hready, hcurrent]
    simp
  refine ⟨hlock.sound.finished_perm hi.le hfin, fun p hp => ?_⟩
  exact hlock.sound.executed_of_finished (hfin p hp)

end SimOs.Os
