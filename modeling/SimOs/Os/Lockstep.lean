import SimOs.Os.Simulator
import SimOs.Os.Shutdown
import SimOs.Timer.Slots

/-!
# Threads and their devices

Where a thread is says what its device does: only a thread in `next_slot` waits, and only a
thread that has exited is detached.  A thread anywhere else works in the current slot, so
`_time` stands still until it calls `next_slot` again.

## Main definitions

* `Tied`: lines and devices agree.
* `Locked`: all that is known of every reachable state before the slots are looked at.
* `Late`: a thread in `next_slot` that is still to be released into the current slot.
* `simulator_refines`: a run of the program is a run of both models.
-/

namespace SimOs.Os

open SimOs.Sched World Simulator

universe u
variable {μ : Type u} {cfg : Setup μ} {n : ℕ}

theorem reachable_os {s : Simulator μ cfg.numCpus} (h : (simulator cfg).Reachable s) :
    (osSystem cfg.toConfig).Reachable s.os := osSystem_simulates.reachable h

theorem reachable_timer {s : Simulator μ cfg.numCpus} (h : (simulator cfg).Reachable s) :
    (Timer.timerSystem (cfg.numCpus + 1)).Reachable s.timer := timerSystem_simulates.reachable h

/-- **Both models are projections of the program**: a run of the program is, of its scheduler,
CPUs and loader, a run in which `next_slot` may return at any time, and, of its timer and
devices, a run in which a device may do anything between two slots. -/
theorem simulator_refines {s t : Simulator μ cfg.numCpus} {ls : List (SimLabel cfg.numCpus)}
    (h : (simulator cfg).run s ls = some t) :
    (∃ ls', (osSystem cfg.toConfig).run s.os ls' = some t.os) ∧
      ∃ ls', (Timer.timerSystem (cfg.numCpus + 1)).run s.timer ls' = some t.timer :=
  ⟨osSystem_simulates.run h, timerSystem_simulates.run h⟩

theorem simulator_refines_oneCalc :
    ∃ s, (simulator (oneCalc 1)).run (Simulator.init 1 ()) oneCpuRun = some s ∧
      s.os.finished = [0] ∧
      (∃ ls, (osSystem (oneCalc 1).toConfig).run (World.init 1 ()) ls = some s.os) ∧
      ∃ ls, (Timer.timerSystem 2).run Timer.init ls = some s.timer := by
  have hrun : (((simulator (oneCalc 1)).run (Simulator.init 1 ()) oneCpuRun).any fun s =>
      s.os.finished = [0]) = true := by decide +kernel
  obtain ⟨s, hs, hfin⟩ := (Option.any_eq_true _ _).mp hrun
  exact ⟨s, hs, of_decide_eq_true hfin, simulator_refines hs⟩

/-! ## Lines and devices -/

/-- What the lines of the threads say of their devices. -/
structure Tied (s : Simulator μ n) : Prop where
  detached : ∀ i, (s.cpuId i).phase = .detached ↔ (s.os.cpu i).line = .exited
  waiting : ∀ i, (s.cpuId i).phase = .waiting → (s.os.cpu i).line = .slot
  ldDetached : s.ldId.phase = .detached ↔ s.os.ld.line = .exited
  ldWaiting : s.ldId.phase = .waiting → s.os.ld.line = .slot ∨ s.os.ld.line = .wait
  /-- A CPU leaves the loop when the loader is done and it holds no process. -/
  leaving : ∀ i, (s.os.cpu i).line = .detach ∨ (s.os.cpu i).line = .exited →
    s.os.done = true ∧ (s.os.cpu i).proc = none

/-- A CPU exits only past `detach_event`, for which it leaves the loop. -/
theorem cpuStep_line {c : Config μ} {w v : World μ n} {i : Fin n}
    (h : cpuStep c w i = some v) (hdetach : (w.cpu i).line ≠ .detach) :
    (v.cpu i).line ≠ .exited ∧
      ((v.cpu i).line = .detach → w.done = true ∧ (v.cpu i).proc = none) := by
  have hline := cpuStep_lines h
  rcases hcpu : w.cpu i with ⟨line, proc, t⟩
  rw [hcpu] at hline hdetach
  cases hline with
  | load =>
      rw [cpu_setCpu_self]
      cases (getProc c.prio w.sched).1 <;> simp
  | checkEmpty =>
      rw [cpu_setCpu_self]
      cases hdone : w.done <;> simp
  | detach => exact absurd rfl hdetach
  | _ => rw [cpu_setCpu_self]; simp

/-- A CPU that has exited makes no step. -/
theorem cpuStep_line_ne_exited {c : Config μ} {w v : World μ n} {i : Fin n}
    (h : cpuStep c w i = some v) : (w.cpu i).line ≠ .exited := by
  intro hline
  rw [cpuStep, hline] at h
  cases h

/-- `Tied` looks at the lines, at `done` and at the phases. -/
theorem Tied.congr {s t : Simulator μ n} (h : Tied s) (hos : t.os = s.os)
    (hphase : ∀ k, (t.timer.dev k).phase = (s.timer.dev k).phase) : Tied t := by
  constructor
  · intro i
    rw [cpuId, hphase, hos]
    exact h.detached i
  · intro i
    rw [cpuId, hphase, hos]
    exact h.waiting i
  · rw [ldId, hphase, hos]
    exact h.ldDetached
  · rw [ldId, hphase, hos]
    exact h.ldWaiting
  · rw [hos]
    exact h.leaving

/-- A CPU moves on within its slot. -/
theorem Tied.cpu {s : Simulator μ n} (h : Tied s) {i : Fin n} {w : World μ n}
    (hslot : (s.os.cpu i).line ≠ .slot) (hdetach : (s.os.cpu i).line ≠ .detach)
    (hw : cpuStep cfg.toConfig s.os i = some w) : Tied (s.setOs w) := by
  obtain ⟨hexited, hleave⟩ := cpuStep_line hw hdetach
  have hcase := cpuStep_cases hw
  obtain ⟨hld, hdone⟩ := hcase.ld
  have hnot := cpuStep_line_ne_exited hw
  constructor
  · intro j
    rw [cpuId_setOs, os_setOs]
    by_cases hj : j = i
    · subst hj
      rw [h.detached j]
      exact ⟨fun hline => absurd hline hnot, fun hline => absurd hline hexited⟩
    · rw [hcase.cpu_of_ne hj]
      exact h.detached j
  · intro j hwait
    rw [cpuId_setOs] at hwait
    rw [os_setOs]
    by_cases hj : j = i
    · subst hj
      exact absurd (h.waiting j hwait) hslot
    · rw [hcase.cpu_of_ne hj]
      exact h.waiting j hwait
  · rw [ldId_setOs, os_setOs, hld]
    exact h.ldDetached
  · rw [ldId_setOs, os_setOs, hld]
    exact h.ldWaiting
  · intro j hj
    rw [os_setOs] at hj ⊢
    rw [hdone]
    by_cases hji : j = i
    · subst hji
      exact hleave (hj.resolve_right hexited)
    · rw [hcase.cpu_of_ne hji] at hj ⊢
      exact h.leaving j hj

/-- A CPU moves on together with its device. -/
theorem Tied.cpuDevice {s : Simulator μ n} (h : Tied s) {i : Fin n} {line : CpuLine}
    {d : Timer.TimerId} (hdet : d.phase = .detached ↔ line = .exited)
    (hwait : d.phase = .waiting → line = .slot)
    (hleave : line = .detach ∨ line = .exited →
      (s.os.cpu i).line = .detach ∨ (s.os.cpu i).line = .exited) :
    Tied ((s.setOs (s.os.setCpu i { s.os.cpu i with line := line })).setDev (cpuDev i) d) := by
  constructor
  · intro j
    by_cases hj : j = i
    · subst hj
      simp [hdet]
    · simp [hj, h.detached j]
  · intro j
    by_cases hj : j = i
    · subst hj
      simpa using hwait
    · simpa [hj] using h.waiting j
  · rw [ldId_setDev_cpuDev]
    exact h.ldDetached
  · rw [ldId_setDev_cpuDev]
    exact h.ldWaiting
  · intro j hline
    by_cases hj : j = i
    · subst hj
      simp only [os_setDev, os_setOs, cpu_setCpu_self] at hline ⊢
      exact h.leaving j (hleave hline)
    · simp only [os_setDev, os_setOs, cpu_setCpu_of_ne _ hj] at hline ⊢
      exact h.leaving j hline

/-- The loader moves on together with its device. -/
theorem Tied.ldDevice {s : Simulator μ n} (h : Tied s) {w : World μ n} {d : Timer.TimerId}
    (hcpu : w.cpu = s.os.cpu) (hdone : s.os.done = true → w.done = true)
    (hdet : d.phase = .detached ↔ w.ld.line = .exited)
    (hwait : d.phase = .waiting → w.ld.line = .slot ∨ w.ld.line = .wait) :
    Tied ((s.setOs w).setDev ldDev d) := by
  constructor
  · intro i
    simpa [hcpu] using h.detached i
  · intro i
    simpa [hcpu] using h.waiting i
  · simpa using hdet
  · simpa using hwait
  · intro i hline
    simp only [os_setDev, os_setOs, hcpu] at hline ⊢
    exact ⟨hdone (h.leaving i hline).1, (h.leaving i hline).2⟩

/-- What the loader's steps leave alone. -/
theorem LdStep.frame {c : Config μ} {w v : World μ n} {line : LdLine} (h : LdStep c w line v) :
    v.cpu = w.cpu ∧ (w.done = true → v.done = true) ∧ v.pc = w.pc ∧ v.finished = w.finished := by
  cases h with
  | done => exact ⟨rfl, fun _ => rfl, rfl, rfl⟩
  | _ => exact ⟨rfl, id, rfl, rfl⟩

/-- The loader exits only past `detach_event`. -/
theorem LdStep.line_ne_exited {c : Config μ} {w v : World μ n} {line : LdLine}
    (h : LdStep c w line v) (hdetach : line ≠ .detach) : v.ld.line ≠ .exited := by
  cases h with
  | detach => exact absurd rfl hdetach
  | _ => simp

theorem setDev_self (s : Simulator μ n) (k : ℕ) : s.setDev k (s.timer.dev k) = s := by
  rw [setDev, Function.update_eq_self]
  rfl

/-- A step of the program keeps lines and devices together. -/
theorem Tied.step {s t : Simulator μ n} {l : SimLabel n} (h : Tied s)
    (hstep : simStep cfg s l = some t) : Tied t := by
  cases simStep_cases hstep with
  | timer u hu => exact h.congr rfl fun k => Timer.phase_timerRoutine hu k
  | cpu i w hslot hdetach hw => exact h.cpu hslot hdetach hw
  | cpuAnnounce i hline hphase =>
      have hcpu : s.os.setCpu i { s.os.cpu i with line := .slot } = s.os := by
        rw [← hline, setCpu, Function.update_eq_self]
      have hdev : Tied ((s.setOs (s.os.setCpu i { s.os.cpu i with line := .slot })).setDev
          (cpuDev i) (s.cpuId i).announce) :=
        h.cpuDevice (by simp [Timer.TimerId.announce]) (fun _ => rfl) (by simp)
      rwa [hcpu] at hdev
  | cpuReturn i hline hphase hdone =>
      exact h.cpuDevice (by simp [Timer.TimerId.wake]) (by simp [Timer.TimerId.wake]) (by simp)
  | cpuDetach i hline hphase =>
      exact h.cpuDevice (by simp [Timer.TimerId.detach]) (by simp [Timer.TimerId.detach])
        fun _ => Or.inl hline
  | ld w hslot hdetach hstart hw =>
      have hld := ldStep_lines hw
      obtain ⟨hcpu, hdone, -, -⟩ := hld.frame
      have hexited : s.os.ld.line ≠ .exited := by
        intro hline
        rw [hline] at hld
        cases hld
      have hwork : s.ldId.phase = .working := by
        cases hphase : s.ldId.phase with
        | working => rfl
        | waiting =>
            rcases h.ldWaiting hphase with hline | hline
            · exact absurd hline hslot
            · exact hphase.symm.trans (hstart hline).1
        | detached => exact absurd (h.ldDetached.mp hphase) hexited
      have hdev := h.ldDevice hcpu hdone (d := s.ldId)
        (by simp [hwork, hld.line_ne_exited hdetach]) (by simp [hwork])
      exact (setDev_self (s.setOs w) ldDev) ▸ hdev
  | ldAnnounce hline hphase =>
      refine h.ldDevice (w := s.os) rfl id ?_ fun _ => ?_
      · rcases hline with hline | ⟨hline, -⟩ <;> simp [Timer.TimerId.announce, hline]
      · exact hline.imp id And.left
  | ldReturn hline hphase hdone =>
      exact h.ldDevice (w := { s.os with ld := ⟨.head, s.os.ld.i⟩ }) rfl id
        (by simp [Timer.TimerId.wake]) (by simp [Timer.TimerId.wake])
  | ldAgain hline hphase hdone =>
      exact h.ldDevice (w := s.os) rfl id (by simp [Timer.TimerId.wake, hline])
        (by simp [Timer.TimerId.wake])
  | ldDetach hline hphase =>
      exact h.ldDevice (w := { s.os with ld := ⟨.exited, s.os.ld.i⟩ }) rfl id
        (by simp [Timer.TimerId.detach]) (by simp [Timer.TimerId.detach])
  | main t ht =>
      have hsame := mainFrame ht
      exact h.congr hsame.os fun k => by rw [hsame.dev]

theorem tied_init (n : ℕ) (mem : μ) : Tied (Simulator.init n mem) := by
  constructor <;> simp [Simulator.init, cpuId, ldId, World.init, Timer.init, Timer.TimerId.attached]

/-- What every reachable state satisfies. -/
structure Locked (cfg : Setup μ) (s : Simulator μ n) : Prop where
  timer : Timer.Inv (n + 1) s.timer
  sound : Sound cfg.toConfig s.os
  retired : Retired s.os
  tied : Tied s

theorem reachable_locked {s : Simulator μ cfg.numCpus} (h : (simulator cfg).Reachable s) :
    Locked cfg s where
  timer := Timer.reachable_inv (reachable_timer h)
  sound := reachable_sound (reachable_os h)
  retired := reachable_retired (reachable_os h)
  tied := h.invariant (P := Tied) (by rintro s ⟨mem, rfl⟩; exact tied_init _ mem)
    fun _ _ _ hs hstep => hs.step hstep

/-! ## The slots -/

namespace Locked
variable {s : Simulator μ n}

/-- **A CPU outside of `next_slot`** works in the current slot. -/
theorem cpu_working (h : Locked cfg s) {i : Fin n} (hslot : (s.os.cpu i).line ≠ .slot)
    (hexited : (s.os.cpu i).line ≠ .exited) :
    (s.cpuId i).phase = .working ∧ (s.cpuId i).returned = s.timer.time := by
  have hphase : (s.cpuId i).phase = .working := by
    cases hphase : (s.cpuId i).phase with
    | working => rfl
    | waiting => exact absurd (h.tied.waiting i hphase) hslot
    | detached => exact absurd ((h.tied.detached i).mp hphase) hexited
  exact ⟨hphase, (h.timer.working (cpuDev_lt i) hphase).1⟩

/-- A CPU that has not exited is in the current slot, or still to be released into it. -/
theorem cpu_slot (h : Locked cfg s) {i : Fin n} (hexited : (s.os.cpu i).line ≠ .exited) :
    (s.cpuId i).returned = s.timer.time ∨
      (s.os.cpu i).line = .slot ∧ (s.cpuId i).phase = .waiting ∧
        (s.cpuId i).returned + 1 = s.timer.time := by
  cases hphase : (s.cpuId i).phase with
  | working => exact Or.inl (h.timer.working (cpuDev_lt i) hphase).1
  | waiting =>
      rcases h.timer.waiting (cpuDev_lt i) hphase with ⟨hnow, -⟩ | hlate
      · exact Or.inl hnow
      · exact Or.inr ⟨h.tied.waiting i hphase, rfl, hlate⟩
  | detached => exact absurd ((h.tied.detached i).mp hphase) hexited

/-- A CPU that has exited holds no process. -/
theorem line_ne_exited (h : Locked cfg s) {i : Fin n} {p : ℕ}
    (hcur : (s.os.cpu i).current = some p) : (s.os.cpu i).line ≠ .exited := by
  intro hline
  have hproc := (h.tied.leaving i (Or.inr hline)).2
  rw [Cpu.current, hline] at hcur
  rw [hproc] at hcur
  cases hcur

end Locked

/-- CPU `i` is in `next_slot` and still to be released into the current slot. -/
def Simulator.Late (s : Simulator μ n) (i : Fin n) : Prop :=
  (s.os.cpu i).line = .slot ∧ (s.cpuId i).returned < s.timer.time

end SimOs.Os
