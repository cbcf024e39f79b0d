import SimOs.Os.Lockstep

/-!
# When processes are loaded

The loader adds one process in a slot, in the order of `ld_processes` and never before its start
time.  So the slot in which a process enters the ready queues is fixed by the start times
alone: whatever the CPUs and the timer do meanwhile, it is one after that of its
predecessor, or its start time if that is later.

## Main definitions

* `loopSlot`, `loadSlot`: the slot in which the loader comes to a process, and adds it.
* `Punctual`: the invariant of the loader.
* `loading_times`: what it means for every reachable state.
-/

namespace SimOs.Os

open SimOs.Sched World Simulator

universe u
variable {μ : Type u}

/-- The slot in which the loader comes to process `k`. -/
def loopSlot (startTime : ℕ → ℕ) : ℕ → ℕ
  | 0 => 0
  | k + 1 => max (loopSlot startTime k) (startTime k) + 1

/-- The slot in which the loader adds process `k`. -/
def loadSlot (startTime : ℕ → ℕ) (k : ℕ) : ℕ := max (loopSlot startTime k) (startTime k)

section Slots
variable {startTime : ℕ → ℕ}

theorem loopSlot_succ (k : ℕ) : loopSlot startTime (k + 1) = loadSlot startTime k + 1 := rfl

theorem loopSlot_le_loadSlot (k : ℕ) : loopSlot startTime k ≤ loadSlot startTime k :=
  le_max_left _ _

theorem startTime_le_loadSlot (k : ℕ) : startTime k ≤ loadSlot startTime k := le_max_right _ _

/-- A process is added before the loader comes to any later one. -/
theorem loadSlot_lt_loopSlot {j k : ℕ} (h : j < k) :
    loadSlot startTime j < loopSlot startTime k := by
  induction k with
  | zero => cases h
  | succ k ih =>
      rw [loopSlot_succ]
      rcases Nat.lt_succ_iff_lt_or_eq.mp h with hlt | rfl
      · exact (ih hlt).trans_le ((loopSlot_le_loadSlot k).trans (Nat.le_succ _))
      · exact Nat.lt_succ_self _

theorem loadSlot_mono {j k : ℕ} (h : j ≤ k) : loadSlot startTime j ≤ loadSlot startTime k := by
  rcases Nat.eq_or_lt_of_le h with rfl | hlt
  · exact le_rfl
  · exact (loadSlot_lt_loopSlot hlt).le.trans (loopSlot_le_loadSlot k)

end Slots

variable {cfg : Setup μ} {n : ℕ}

/-- What the line of the loader says of its slot. -/
def Punctual (cfg : Setup μ) (s : Simulator μ n) : Prop :=
  let i := s.os.ld.i
  let slot := s.ldId.returned
  match s.os.ld.line with
  | .head => slot = loopSlot cfg.startTime i ∧ i ≤ cfg.ldProcesses.length
  | .wait =>
      (loopSlot cfg.startTime i ≤ slot ∧ slot ≤ loadSlot cfg.startTime i ∧
        (s.ldId.phase = .waiting → slot < cfg.startTime i)) ∧ i < cfg.ldProcesses.length
  | .addRunning => slot = loadSlot cfg.startTime i ∧ i < cfg.ldProcesses.length
  | .addReady => slot = loadSlot cfg.startTime i ∧ i < cfg.ldProcesses.length
  | .slot => slot + 1 = loopSlot cfg.startTime i ∧ i ≤ cfg.ldProcesses.length
  | .detach =>
      slot = loopSlot cfg.startTime i ∧ i = cfg.ldProcesses.length ∧ s.os.done = true
  | .exited =>
      loopSlot cfg.startTime i ≤ s.timer.time ∧ i = cfg.ldProcesses.length ∧ s.os.done = true

/-- `Punctual` looks at the loader, its device, and `_time`, which only grows. -/
theorem Punctual.congr {s t : Simulator μ n} (h : Punctual cfg s) (hld : t.os.ld = s.os.ld)
    (hdone : t.os.done = s.os.done) (hphase : t.ldId.phase = s.ldId.phase)
    (hret : t.ldId.returned = s.ldId.returned) (htime : s.timer.time ≤ t.timer.time) :
    Punctual cfg t := by
  rw [Punctual] at h ⊢
  rw [hld, hdone, hphase, hret]
  cases hline : s.os.ld.line <;> simp only [hline] at h ⊢
  case exited => exact ⟨h.1.trans htime, h.2⟩
  all_goals exact h

namespace Locked
variable {s : Simulator μ n}

/-- **The loader outside of `next_slot`** works in the current slot. -/
theorem ld_working (h : Locked cfg s) (hslot : s.os.ld.line ≠ .slot)
    (hwait : s.os.ld.line ≠ .wait) (hexited : s.os.ld.line ≠ .exited) :
    s.ldId.phase = .working ∧ s.ldId.returned = s.timer.time := by
  have hphase : s.ldId.phase = .working := by
    cases hphase : s.ldId.phase with
    | working => rfl
    | waiting => exact absurd (h.tied.ldWaiting hphase) (by simp [hslot, hwait])
    | detached => exact absurd (h.tied.ldDetached.mp hphase) hexited
  exact ⟨hphase, (h.timer.working (ldDev_lt n) hphase).1⟩

/-- In `next_slot` the loader may be one slot late. -/
theorem ld_slot (h : Locked cfg s) (hexited : s.os.ld.line ≠ .exited) :
    s.ldId.returned = s.timer.time ∨
      s.ldId.phase = .waiting ∧ s.ldId.returned + 1 = s.timer.time := by
  cases hphase : s.ldId.phase with
  | working => exact Or.inl (h.timer.working (ldDev_lt n) hphase).1
  | waiting => exact (h.timer.waiting (ldDev_lt n) hphase).imp And.left fun hlate => ⟨rfl, hlate⟩
  | detached => exact absurd (h.tied.ldDetached.mp hphase) hexited

end Locked

/-- The loader moves on within its slot. -/
theorem Punctual.ld {s : Simulator μ n} {w : World μ n} (h : Punctual cfg s)
    (hlock : Locked cfg s) (hslot : s.os.ld.line ≠ .slot) (hdetach : s.os.ld.line ≠ .detach)
    (hstart : s.os.ld.line = .wait →
      s.ldId.phase = .working ∧ cfg.startTime s.os.ld.i ≤ s.timer.time)
    (hw : ldStep cfg.toConfig s.os = some w) : Punctual cfg (s.setOs w) := by
  have hld := ldStep_lines hw
  rw [Punctual] at h ⊢
  rw [ldId_setOs, os_setOs, timer_setOs]
  cases hline : s.os.ld.line <;> rw [hline] at hld <;> simp only [hline] at h
  case head =>
    cases hld with
    | next hlt =>
        obtain ⟨hphase, -⟩ := hlock.ld_working (by simp [hline]) (by simp [hline])
          (by simp [hline])
        refine ⟨⟨h.1.ge, h.1.le.trans (loopSlot_le_loadSlot _), ?_⟩, hlt⟩
        intro hwait
        rw [hphase] at hwait
        cases hwait
    | done hge => exact ⟨h.1, Nat.le_antisymm h.2 (Nat.le_of_not_lt hge), rfl⟩
  case wait =>
    obtain ⟨hphase, hcome⟩ := hstart hline
    have hnow := (hlock.timer.working (ldDev_lt n) hphase).1
    cases hld
    exact ⟨Nat.le_antisymm h.1.2.1 (max_le h.1.1 (hcome.trans hnow.ge)), h.2⟩
  case addRunning =>
    cases hld
    exact h
  case addReady =>
    cases hld
    exact ⟨by rw [loopSlot_succ, h.1], h.2⟩
  case slot => exact absurd hline hslot
  case detach => exact absurd hline hdetach
  case exited => cases hld

/-- **One step of the program** keeps the loader punctual. -/
theorem Punctual.step {s t : Simulator μ n} {l : SimLabel n} (h : Punctual cfg s)
    (hlock : Locked cfg s) (hstep : simStep cfg s l = some t) : Punctual cfg t := by
  cases simStep_cases hstep with
  | timer u hu =>
      refine h.congr rfl rfl (Timer.phase_timerRoutine hu _) (Timer.returned_timerRoutine hu _) ?_
      rcases Timer.time_timerRoutine hu with htime | ⟨htime, -⟩
      · exact htime.ge
      · exact (Nat.le_succ _).trans htime.ge
  | cpu i w hslot hdetach hw =>
      obtain ⟨hld, hdone⟩ := (cpuStep_cases hw).ld
      exact h.congr hld hdone rfl rfl le_rfl
  | cpuAnnounce i hline hphase =>
      exact h.congr rfl rfl (by simp) (by simp) le_rfl
  | cpuReturn i hline hphase hdone =>
      exact h.congr rfl rfl (by simp) (by simp) le_rfl
  | cpuDetach i hline hphase =>
      exact h.congr rfl rfl (by simp) (by simp) le_rfl
  | ld w hslot hdetach hstart hw => exact h.ld hlock hslot hdetach hstart hw
  | ldAnnounce hline hphase =>
      have hnow := (hlock.timer.working (ldDev_lt n) hphase).1
      rw [Punctual] at h ⊢
      rw [ldId_setDev_self, os_setDev]
      rcases hline with hline | ⟨hline, hearly⟩
      · simp only [hline] at h ⊢
        exact h
      · simp only [hline] at h ⊢
        refine ⟨⟨h.1.1, h.1.2.1, ?_⟩, h.2⟩
        intro _
        exact hnow.le.trans_lt hearly
  | ldReturn hline hphase hdone =>
      rw [Punctual] at h ⊢
      simp only [hline] at h
      rw [ldId_setDev_self, os_setDev, os_setOs]
      exact h
  | ldAgain hline hphase hdone =>
      rw [Punctual] at h ⊢
      rw [ldId_setDev_self, os_setDev]
      simp only [hline] at h ⊢
      have hearly := h.1.2.2 hphase
      refine ⟨⟨h.1.1.trans (Nat.le_succ _), ?_, fun hwait => by cases hwait⟩, h.2⟩
      exact Nat.succ_le_of_lt (hearly.trans_le (startTime_le_loadSlot _))
  | ldDetach hline hphase =>
      have hnow := (hlock.timer.working (ldDev_lt n) hphase).1
      rw [Punctual] at h ⊢
      simp only [hline] at h
      exact ⟨h.1.ge.trans hnow.le, h.2⟩
  | main t ht =>
      have hsame := mainFrame ht
      exact h.congr (by rw [hsame.os]) (by rw [hsame.os]) (by rw [hsame.ldId])
        (by rw [hsame.ldId]) hsame.time.ge

theorem reachable_punctual {s : Simulator μ cfg.numCpus} (h : (simulator cfg).Reachable s) :
    Punctual cfg s := by
  refine h.invariant_of ?_ fun s _ _ hs hP hstep => hP.step (reachable_locked hs) hstep
  rintro s ⟨mem, rfl⟩
  exact ⟨rfl, Nat.zero_le _⟩

/-- The loader is never late for the process that comes next. -/
theorem Punctual.time_le {s : Simulator μ n} (h : Punctual cfg s) (hlock : Locked cfg s)
    (hnot : s.os.done = false) : s.timer.time ≤ loadSlot cfg.startTime s.os.ld.i := by
  have hdone : s.os.done ≠ true := by simp [hnot]
  have hwork := hlock.ld_working
  rw [Punctual] at h
  cases hline : s.os.ld.line <;> simp only [hline] at h
  case head =>
    have hnow := (hwork (by simp [hline]) (by simp [hline]) (by simp [hline])).2
    exact (hnow.ge.trans h.1.le).trans (loopSlot_le_loadSlot _)
  case wait =>
    rcases hlock.ld_slot (by simp [hline]) with hnow | ⟨hphase, hlate⟩
    · exact hnow.ge.trans h.1.2.1
    · have hearly := h.1.2.2 hphase
      have hstart := @startTime_le_loadSlot cfg.startTime s.os.ld.i
      omega
  case addRunning | addReady =>
    have hnow := (hwork (by simp [hline]) (by simp [hline]) (by simp [hline])).2
    exact hnow.ge.trans h.1.le
  case slot =>
    have hloop := @loopSlot_le_loadSlot cfg.startTime s.os.ld.i
    rcases hlock.ld_slot (by simp [hline]) with hnow | ⟨-, hlate⟩ <;> omega
  case detach => exact absurd h.2.2 hdone
  case exited => exact absurd h.2.2 hdone

/-- A loaded process was loaded in an earlier slot, or in this one. -/
theorem Punctual.loadSlot_le {s : Simulator μ n} (h : Punctual cfg s) (hlock : Locked cfg s)
    {p : ℕ} (hp : p < s.os.ld.i) : loadSlot cfg.startTime p ≤ s.timer.time := by
  have hlt := @loadSlot_lt_loopSlot cfg.startTime p s.os.ld.i hp
  have hle := @loopSlot_le_loadSlot cfg.startTime s.os.ld.i
  rw [Punctual] at h
  cases hline : s.os.ld.line <;> simp only [hline] at h
  case exited => omega
  all_goals
    have hslot := hlock.ld_slot (by simp [hline])
    omega

/-- When `done` is set all processes were loaded, in an earlier slot. -/
theorem Punctual.of_done {s : Simulator μ n} (h : Punctual cfg s) (hlock : Locked cfg s)
    (hdone : s.os.done = true) : s.os.ld.i = cfg.ldProcesses.length ∧
      loopSlot cfg.startTime cfg.ldProcesses.length ≤ s.timer.time := by
  rw [Punctual] at h
  rcases hlock.retired hdone with hline | hline <;> simp only [hline] at h
  · have hnow := (hlock.ld_working (by simp [hline]) (by simp [hline]) (by simp [hline])).2
    exact ⟨h.2.1, h.2.1 ▸ h.1.ge.trans hnow.le⟩
  · exact ⟨h.2.1, h.2.1 ▸ h.1⟩

/-- The loader does not run past `ld_processes`. -/
theorem Punctual.le_length {s : Simulator μ n} (h : Punctual cfg s) :
    s.os.ld.i ≤ cfg.ldProcesses.length := by
  rw [Punctual] at h
  cases hline : s.os.ld.line <;> simp only [hline] at h
  case head | slot => exact h.2
  case wait | addRunning | addReady => exact h.2.le
  case detach | exited => exact h.2.1.le

/-- **Processes are loaded on time**, whatever the interleaving: the loader adds a process in
its `loadSlot`; until then every later process is still to come, and from then on `_time` is
past the slots of all processes that were loaded. -/
theorem loading_times {s : Simulator μ cfg.numCpus} (h : (simulator cfg).Reachable s) :
    (s.os.ld.line = .addReady → s.timer.time = loadSlot cfg.startTime s.os.ld.i) ∧
    (∀ p, p < s.os.ld.i → loadSlot cfg.startTime p ≤ s.timer.time) ∧
    (∀ p, s.os.ld.i ≤ p → p < cfg.ldProcesses.length →
      s.timer.time ≤ loadSlot cfg.startTime p) := by
  have hlock := reachable_locked h
  have hp := reachable_punctual h
  refine ⟨?_, fun p hlt => hp.loadSlot_le hlock hlt, ?_⟩
  · intro hline
    have hnow := (hlock.ld_working (by simp [hline]) (by simp [hline]) (by simp [hline])).2
    rw [Punctual] at hp
    simp only [hline] at hp
    exact hnow.symm.trans hp.1
  · intro p hle hlt
    have hnot : s.os.done = false := by
      by_contra hdone
      have := (hp.of_done hlock (by simpa using hdone)).1
      omega
    exact (hp.time_le hlock hnot).trans (loadSlot_mono hle)

theorem loading_times_oneCalc :
    ∃ s, (simulator (oneCalc 1)).Reachable s ∧ s.os.ld.line = .addReady ∧
      (s.os.ld.line = .addReady → s.timer.time = loadSlot (fun _ => 0) s.os.ld.i) ∧
      (∀ p, p < s.os.ld.i → loadSlot (fun _ => 0) p ≤ s.timer.time) ∧
      ∀ p, s.os.ld.i ≤ p → p < 1 → s.timer.time ≤ loadSlot (fun _ => 0) p := by
  have hrun : (((simulator (oneCalc 1)).run (Simulator.init 1 ())
      (List.replicate 3 .loader)).any fun s => s.os.ld.line = .addReady) = true := by
    decide +kernel
  obtain ⟨s, hs, hline⟩ := (Option.any_eq_true _ _).mp hrun
  have hreach : (simulator (oneCalc 1)).Reachable s := ⟨_, _, ⟨(), rfl⟩, hs⟩
  exact ⟨s, hreach, of_decide_eq_true hline, loading_times hreach⟩

end SimOs.Os
