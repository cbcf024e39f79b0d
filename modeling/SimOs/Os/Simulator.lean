import SimOs.Os.Ownership
import SimOs.Timer.Barrier
import SimOs.Lib.Simulation

/-!
# The whole program

`main` attaches one device for each CPU and one for the loader, starts the timer, creates
the threads and joins them, and at last stops the timer and frees the devices.  Here the
model of the scheduler's clients, where `next_slot` may return at any time, and the model of
the timer, where a device may do anything between two slots, are put together: a CPU and the
loader are the owners of their devices, and a thread goes on after `next_slot` only when its
device was released.  The loader waits for the start times by the clock of the timer.

The test of a start time and the announcement that follows are one step: while a device
works in its slot `_time` stands still.

## Main definitions

* `Setup`: a configuration with the start times.
* `Simulator`: the threads, the timer and `main`.
* `attachEvent`, `containers`: how `dev_list` comes about.
* `nextSlot`, `cpuThread`, `ldThread`, `mainThread`: the steps of the threads.
* `simulator`: all interleavings.
* `SimStep`: what the steps can do.
* `osSystem_simulates`, `timerSystem_simulates`: both models are projections.
-/

namespace SimOs.Os

open SimOs.Sched World

universe u
variable {μ : Type u}

/-- The configuration of a simulation, with the field `start_time` of `ld_processes`. -/
structure Setup (μ : Type u) extends Config μ where
  startTime : ℕ → ℕ

/-- Where `main` is, once it has created the threads. -/
inductive MainLine
  /-- `pthread_join` on CPU `k`. -/
  | joinCpu (k : ℕ)
  /-- `pthread_join` on the loader. -/
  | joinLd
  /-- The assignment in `stop_timer`. -/
  | stopTimer
  /-- `pthread_join` on the timer. -/
  | joinTimer
  /-- The loop in `stop_timer` that frees `dev_list`. -/
  | freeDevs
  | returned
  deriving DecidableEq

/-- The state of the program. -/
structure Simulator (μ : Type u) (n : ℕ) where
  /-- The scheduler, the CPUs and the loader. -/
  os : World μ n
  timer : Timer.State
  main : MainLine
  /-- The containers of `dev_list` that are not freed. -/
  devList : List ℕ

/-- Who makes a step. -/
inductive SimLabel (n : ℕ)
  | timer
  | cpu (i : Fin n)
  | loader
  | main
  deriving DecidableEq

/-! ## The devices -/

/-- `attach_event`: a new container goes in front of `dev_list`, unless the timer was
started. -/
def attachEvent (timerStarted : Bool) (devList : List ℕ) (container : ℕ) : Option (List ℕ) :=
  if timerStarted then none else some (container :: devList)

/-- `dev_list` when the timer is started: the containers of CPU 0 and so on, and last that of
the loader. -/
def containers (n : ℕ) : List ℕ := (List.range (n + 1)).reverse

/-- **The calls of `attach_event`** in `main` all succeed and leave this list. -/
theorem attachEvent_all (n : ℕ) :
    (List.range (n + 1)).foldlM (attachEvent false) [] = some (containers n) := by
  have hfold : ∀ l rest : List ℕ,
      l.foldlM (attachEvent false) rest = some (l.reverse ++ rest) := by
    intro l
    induction l with
    | nil => intro rest; rfl
    | cons c l ih =>
        intro rest
        rw [List.foldlM_cons]
        simp only [attachEvent, Bool.false_eq_true, if_false]
        exact (ih (c :: rest)).trans (by simp)
  rw [hfold, List.append_nil, containers]

/-- The place in `dev_list` of the device of CPU `i`. -/
def cpuDev {n : ℕ} (i : Fin n) : ℕ := n - i

/-- The place in `dev_list` of the device of the loader. -/
def ldDev : ℕ := 0

section Devices
variable {n : ℕ}

theorem length_containers (n : ℕ) : (containers n).length = n + 1 := by simp [containers]

theorem getElem?_containers {k : ℕ} (hk : k < n + 1) : (containers n)[k]? = some (n - k) := by
  rw [containers, List.getElem?_reverse (by simpa using hk), List.length_range,
    List.getElem?_range (by omega), Nat.add_sub_cancel]

/-- A CPU uses the container that `main` gave it. -/
theorem containers_cpuDev (i : Fin n) : (containers n)[cpuDev i]? = some (i : ℕ) := by
  have hi := i.isLt
  rw [getElem?_containers (by rw [cpuDev]; omega), cpuDev]
  congr
  omega

/-- So does the loader. -/
theorem containers_ldDev : (containers n)[ldDev]? = some n := getElem?_containers (by simp [ldDev])

theorem cpuDev_lt (i : Fin n) : cpuDev i < n + 1 := by rw [cpuDev]; omega

theorem ldDev_lt (n : ℕ) : ldDev < n + 1 := by rw [ldDev]; omega

theorem cpuDev_ne_ldDev (i : Fin n) : cpuDev i ≠ ldDev := by
  have hi := i.isLt
  rw [cpuDev, ldDev]
  omega

theorem cpuDev_injective {i j : Fin n} (h : cpuDev i = cpuDev j) : i = j := by
  have hi := i.isLt
  have hj := j.isLt
  rw [cpuDev, cpuDev] at h
  exact Fin.ext (by omega)

/-- Every device has an owner. -/
theorem eq_ldDev_or_cpuDev {k : ℕ} (hk : k < n + 1) :
    k = ldDev ∨ ∃ i : Fin n, k = cpuDev i := by
  rcases Nat.eq_zero_or_pos k with hzero | hpos
  · exact Or.inl hzero
  · refine Or.inr ⟨⟨n - k, by omega⟩, ?_⟩
    simp only [cpuDev]
    omega

end Devices

/-! ## The threads -/

namespace Simulator
variable {n : ℕ}

/-- The device of CPU `i`. -/
def cpuId (s : Simulator μ n) (i : Fin n) : Timer.TimerId := s.timer.dev (cpuDev i)

/-- The device of the loader. -/
def ldId (s : Simulator μ n) : Timer.TimerId := s.timer.dev ldDev

/-- Set the scheduler, the CPUs and the loader. -/
def setOs (s : Simulator μ n) (w : World μ n) : Simulator μ n := { s with os := w }

/-- Set the timer. -/
def setTimer (s : Simulator μ n) (t : Timer.State) : Simulator μ n := { s with timer := t }

/-- Set one device. -/
def setDev (s : Simulator μ n) (k : ℕ) (d : Timer.TimerId) : Simulator μ n :=
  s.setTimer { s.timer with dev := Function.update s.timer.dev k d }

@[simp] theorem os_setOs (s : Simulator μ n) (w : World μ n) : (s.setOs w).os = w := rfl
@[simp] theorem timer_setOs (s : Simulator μ n) (w : World μ n) : (s.setOs w).timer = s.timer := rfl
@[simp] theorem main_setOs (s : Simulator μ n) (w : World μ n) : (s.setOs w).main = s.main := rfl
@[simp] theorem devList_setOs (s : Simulator μ n) (w : World μ n) :
    (s.setOs w).devList = s.devList := rfl
@[simp] theorem cpuId_setOs (s : Simulator μ n) (w : World μ n) (i : Fin n) :
    (s.setOs w).cpuId i = s.cpuId i := rfl
@[simp] theorem ldId_setOs (s : Simulator μ n) (w : World μ n) : (s.setOs w).ldId = s.ldId := rfl

@[simp] theorem os_setTimer (s : Simulator μ n) (t : Timer.State) : (s.setTimer t).os = s.os := rfl
@[simp] theorem timer_setTimer (s : Simulator μ n) (t : Timer.State) :
    (s.setTimer t).timer = t := rfl
@[simp] theorem main_setTimer (s : Simulator μ n) (t : Timer.State) :
    (s.setTimer t).main = s.main := rfl
@[simp] theorem devList_setTimer (s : Simulator μ n) (t : Timer.State) :
    (s.setTimer t).devList = s.devList := rfl

@[simp] theorem os_setDev (s : Simulator μ n) (k : ℕ) (d : Timer.TimerId) :
    (s.setDev k d).os = s.os := rfl
@[simp] theorem main_setDev (s : Simulator μ n) (k : ℕ) (d : Timer.TimerId) :
    (s.setDev k d).main = s.main := rfl
@[simp] theorem devList_setDev (s : Simulator μ n) (k : ℕ) (d : Timer.TimerId) :
    (s.setDev k d).devList = s.devList := rfl
@[simp] theorem time_setDev (s : Simulator μ n) (k : ℕ) (d : Timer.TimerId) :
    (s.setDev k d).timer.time = s.timer.time := rfl
@[simp] theorem pc_setDev (s : Simulator μ n) (k : ℕ) (d : Timer.TimerId) :
    (s.setDev k d).timer.pc = s.timer.pc := rfl
@[simp] theorem timerStop_setDev (s : Simulator μ n) (k : ℕ) (d : Timer.TimerId) :
    (s.setDev k d).timer.timerStop = s.timer.timerStop := rfl

@[simp] theorem dev_setDev_self (s : Simulator μ n) (k : ℕ) (d : Timer.TimerId) :
    (s.setDev k d).timer.dev k = d := Function.update_self ..
@[simp] theorem dev_setDev_of_ne (s : Simulator μ n) {j k : ℕ} (h : j ≠ k) (d : Timer.TimerId) :
    (s.setDev k d).timer.dev j = s.timer.dev j := Function.update_of_ne h ..

@[simp] theorem cpuId_setDev_self (s : Simulator μ n) (i : Fin n) (d : Timer.TimerId) :
    (s.setDev (cpuDev i) d).cpuId i = d := dev_setDev_self ..
@[simp] theorem cpuId_setDev_of_ne (s : Simulator μ n) {i j : Fin n} (h : j ≠ i)
    (d : Timer.TimerId) : (s.setDev (cpuDev i) d).cpuId j = s.cpuId j :=
  dev_setDev_of_ne s (fun he => h (cpuDev_injective he)) d
@[simp] theorem cpuId_setDev_ldDev (s : Simulator μ n) (i : Fin n) (d : Timer.TimerId) :
    (s.setDev ldDev d).cpuId i = s.cpuId i := dev_setDev_of_ne s (cpuDev_ne_ldDev i) d
@[simp] theorem ldId_setDev_self (s : Simulator μ n) (d : Timer.TimerId) :
    (s.setDev ldDev d).ldId = d := dev_setDev_self ..
@[simp] theorem ldId_setDev_cpuDev (s : Simulator μ n) (i : Fin n) (d : Timer.TimerId) :
    (s.setDev (cpuDev i) d).ldId = s.ldId :=
  dev_setDev_of_ne s (Ne.symm (cpuDev_ne_ldDev i)) d

end Simulator

section Steps
variable (cfg : Setup μ) {n : ℕ}

/-- `next_slot` of the thread with device `k`: the announcement, and later the return, with
which the thread makes its step `back`. -/
def nextSlot (s : Simulator μ n) (k : ℕ) (back : World μ n → Option (World μ n)) :
    Option (Simulator μ n) :=
  if (s.timer.dev k).phase = .working then
    (Timer.step (n + 1) s.timer (.announce k)).map s.setTimer
  else
    (Timer.step (n + 1) s.timer (.wake k)).bind fun t =>
      (back s.os).map fun w => (s.setOs w).setTimer t

/-- `detach_event` and `pthread_exit` of the thread with device `k`. -/
def detachEvent (s : Simulator μ n) (k : ℕ) (exit : World μ n → Option (World μ n)) :
    Option (Simulator μ n) :=
  (Timer.step (n + 1) s.timer (.detach k)).bind fun t =>
    (exit s.os).map fun w => (s.setOs w).setTimer t

/-- One step of CPU `i`. -/
def cpuThread (s : Simulator μ n) (i : Fin n) : Option (Simulator μ n) :=
  match (s.os.cpu i).line with
  | .slot => nextSlot s (cpuDev i) fun w => cpuStep cfg.toConfig w i
  | .detach => detachEvent s (cpuDev i) fun w => cpuStep cfg.toConfig w i
  | _ => (cpuStep cfg.toConfig s.os i).map s.setOs

/-- One step of the loader. -/
def ldThread (s : Simulator μ n) : Option (Simulator μ n) :=
  match s.os.ld.line with
  | .wait =>
      -- The loop has ended if the thread is not in `next_slot` and the time has come.
      if s.ldId.phase = .working ∧ ¬ s.timer.time < cfg.startTime s.os.ld.i then
        (ldStep cfg.toConfig s.os).map s.setOs
      else nextSlot s ldDev fun w => osStep cfg.toConfig w .loaderWait
  | .slot => nextSlot s ldDev (ldStep cfg.toConfig)
  | .detach => detachEvent s ldDev (ldStep cfg.toConfig)
  | _ => (ldStep cfg.toConfig s.os).map s.setOs

/-- One step of `main`. -/
def mainThread (s : Simulator μ n) : Option (Simulator μ n) :=
  match s.main with
  | .joinCpu k =>
      if hk : k < n then
        if (s.os.cpu ⟨k, hk⟩).line = .exited then some { s with main := .joinCpu (k + 1) }
        else none
      else some { s with main := .joinLd }
  | .joinLd => if s.os.ld.line = .exited then some { s with main := .stopTimer } else none
  | .stopTimer =>
      (Timer.step (n + 1) s.timer .stopTimer).map fun t =>
        { s.setTimer t with main := .joinTimer }
  | .joinTimer => if s.timer.pc = .exited then some { s with main := .freeDevs } else none
  | .freeDevs =>
      match s.devList with
      | [] => some { s with main := .returned }
      | _ :: rest => some { s with devList := rest }
  | .returned => none

/-- One step of the program. -/
def simStep (s : Simulator μ n) : SimLabel n → Option (Simulator μ n)
  | .timer => (Timer.step (n + 1) s.timer .timer).map s.setTimer
  | .cpu i => cpuThread cfg s i
  | .loader => ldThread cfg s
  | .main => mainThread s

/-- The state in which `main` has created the threads. -/
def Simulator.init (n : ℕ) (mem : μ) : Simulator μ n where
  os := World.init n mem
  timer := Timer.init
  main := .joinCpu 0
  devList := containers n

/-- All interleavings of the program. -/
def simulator : Lts (Simulator μ cfg.numCpus) (SimLabel cfg.numCpus) where
  init s := ∃ mem, s = Simulator.init cfg.numCpus mem
  step := simStep cfg

end Steps

/-! ## The steps -/

section Lines
variable {cfg : Setup μ} {n : ℕ}

/-- The steps of the program, thread by thread. -/
inductive SimStep (cfg : Setup μ) (s : Simulator μ n) : SimLabel n → Simulator μ n → Prop
  | timer (t : Timer.State) (ht : Timer.timerRoutine (n + 1) s.timer = some t) :
      SimStep cfg s .timer (s.setTimer t)
  | cpu (i : Fin n) (w : World μ n) (hslot : (s.os.cpu i).line ≠ .slot)
      (hdetach : (s.os.cpu i).line ≠ .detach) (hw : cpuStep cfg.toConfig s.os i = some w) :
      SimStep cfg s (.cpu i) (s.setOs w)
  | cpuAnnounce (i : Fin n) (hline : (s.os.cpu i).line = .slot)
      (hphase : (s.cpuId i).phase = .working) :
      SimStep cfg s (.cpu i) (s.setDev (cpuDev i) (s.cpuId i).announce)
  | cpuReturn (i : Fin n) (hline : (s.os.cpu i).line = .slot)
      (hphase : (s.cpuId i).phase = .waiting) (hdone : (s.cpuId i).done = false) :
      SimStep cfg s (.cpu i)
        ((s.setOs (s.os.setCpu i { s.os.cpu i with line := .head })).setDev (cpuDev i)
          (s.cpuId i).wake)
  | cpuDetach (i : Fin n) (hline : (s.os.cpu i).line = .detach)
      (hphase : (s.cpuId i).phase = .working) :
      SimStep cfg s (.cpu i)
        ((s.setOs (s.os.setCpu i { s.os.cpu i with line := .exited })).setDev (cpuDev i)
          (s.cpuId i).detach)
  | ld (w : World μ n) (hslot : s.os.ld.line ≠ .slot) (hdetach : s.os.ld.line ≠ .detach)
      (hstart : s.os.ld.line = .wait →
        s.ldId.phase = .working ∧ cfg.startTime s.os.ld.i ≤ s.timer.time)
      (hw : ldStep cfg.toConfig s.os = some w) :
      SimStep cfg s .loader (s.setOs w)
  | ldAnnounce (hline : s.os.ld.line = .slot ∨
        s.os.ld.line = .wait ∧ s.timer.time < cfg.startTime s.os.ld.i)
      (hphase : s.ldId.phase = .working) :
      SimStep cfg s .loader (s.setDev ldDev s.ldId.announce)
  | ldReturn (hline : s.os.ld.line = .slot) (hphase : s.ldId.phase = .waiting)
      (hdone : s.ldId.done = false) :
      SimStep cfg s .loader
        ((s.setOs { s.os with ld := ⟨.head, s.os.ld.i⟩ }).setDev ldDev s.ldId.wake)
  | ldAgain (hline : s.os.ld.line = .wait) (hphase : s.ldId.phase = .waiting)
      (hdone : s.ldId.done = false) :
      SimStep cfg s .loader (s.setDev ldDev s.ldId.wake)
  | ldDetach (hline : s.os.ld.line = .detach) (hphase : s.ldId.phase = .working) :
      SimStep cfg s .loader
        ((s.setOs { s.os with ld := ⟨.exited, s.os.ld.i⟩ }).setDev ldDev s.ldId.detach)
  | main (t : Simulator μ n) (ht : mainThread s = some t) : SimStep cfg s .main t

/-- An announcement, or the return from `next_slot`. -/
theorem nextSlot_cases {s t : Simulator μ n} {k : ℕ} {back : World μ n → Option (World μ n)}
    (h : nextSlot s k back = some t) :
    (s.timer.dev k).phase = .working ∧ t = s.setDev k (s.timer.dev k).announce ∨
    (s.timer.dev k).phase = .waiting ∧ (s.timer.dev k).done = false ∧
      ∃ w, back s.os = some w ∧ t = (s.setOs w).setDev k (s.timer.dev k).wake := by
  rw [nextSlot] at h
  split at h
  · next hphase =>
      obtain ⟨u, hu, rfl⟩ := Option.map_eq_some_iff.mp h
      simp only [Timer.step, Option.ite_none_right_eq_some, Option.some.injEq] at hu
      exact Or.inl ⟨hphase, by rw [← hu.2]; rfl⟩
  · obtain ⟨u, hu, hrest⟩ := Option.bind_eq_some_iff.mp h
    obtain ⟨w, hw, rfl⟩ := Option.map_eq_some_iff.mp hrest
    simp only [Timer.step, Option.ite_none_right_eq_some, Option.some.injEq] at hu
    obtain ⟨⟨-, hphase, hdone⟩, rfl⟩ := hu
    exact Or.inr ⟨hphase, hdone, w, hw, rfl⟩

theorem detachEvent_cases {s t : Simulator μ n} {k : ℕ} {exit : World μ n → Option (World μ n)}
    (h : detachEvent s k exit = some t) :
    (s.timer.dev k).phase = .working ∧
      ∃ w, exit s.os = some w ∧ t = (s.setOs w).setDev k (s.timer.dev k).detach := by
  obtain ⟨u, hu, hrest⟩ := Option.bind_eq_some_iff.mp h
  obtain ⟨w, hw, rfl⟩ := Option.map_eq_some_iff.mp hrest
  simp only [Timer.step, Option.ite_none_right_eq_some, Option.some.injEq] at hu
  obtain ⟨⟨-, hphase⟩, rfl⟩ := hu
  exact ⟨hphase, w, hw, rfl⟩

/-- A CPU in `next_slot` returns to the head of the loop. -/
theorem cpuStep_slot {w v : World μ n} {i : Fin n} {c : Config μ} (h : cpuStep c w i = some v)
    (hline : (w.cpu i).line = .slot) : v = w.setCpu i { w.cpu i with line := .head } := by
  have hstep := cpuStep_lines h
  rcases hcpu : w.cpu i with ⟨line, proc, t⟩
  rw [hcpu] at hstep hline
  obtain rfl : line = .slot := hline
  cases hstep
  rfl

/-- Past `detach_event` a CPU exits. -/
theorem cpuStep_detach {w v : World μ n} {i : Fin n} {c : Config μ} (h : cpuStep c w i = some v)
    (hline : (w.cpu i).line = .detach) : v = w.setCpu i { w.cpu i with line := .exited } := by
  have hstep := cpuStep_lines h
  rcases hcpu : w.cpu i with ⟨line, proc, t⟩
  rw [hcpu] at hstep hline
  obtain rfl : line = .detach := hline
  cases hstep
  rfl

theorem cpuThread_cases {s t : Simulator μ n} {i : Fin n} (h : cpuThread cfg s i = some t) :
    SimStep cfg s (.cpu i) t := by
  rw [cpuThread] at h
  split at h
  · next hline =>
      rcases nextSlot_cases h with ⟨hphase, rfl⟩ | ⟨hphase, hdone, w, hw, rfl⟩
      · exact .cpuAnnounce i hline hphase
      · rw [cpuStep_slot hw hline]
        exact .cpuReturn i hline hphase hdone
  · next hline =>
      obtain ⟨hphase, w, hw, rfl⟩ := detachEvent_cases h
      rw [cpuStep_detach hw hline]
      exact .cpuDetach i hline hphase
  · next hslot hdetach =>
      obtain ⟨w, hw, rfl⟩ := Option.map_eq_some_iff.mp h
      exact .cpu i w hslot hdetach hw

theorem ldThread_cases {s t : Simulator μ n} (h : ldThread cfg s = some t) :
    SimStep cfg s .loader t := by
  rw [ldThread] at h
  split at h
  · next hline =>
      split at h
      · next hgo =>
          obtain ⟨w, hw, rfl⟩ := Option.map_eq_some_iff.mp h
          exact .ld w (by simp [hline]) (by simp [hline])
            (fun _ => ⟨hgo.1, Nat.le_of_not_lt hgo.2⟩) hw
      · next hstay =>
          rcases nextSlot_cases h with ⟨hphase, rfl⟩ | ⟨hphase, hdone, w, hw, rfl⟩
          · have hearly : s.timer.time < cfg.startTime s.os.ld.i := by
              by_contra hlate
              exact hstay ⟨hphase, hlate⟩
            exact .ldAnnounce (Or.inr ⟨hline, hearly⟩) hphase
          · obtain rfl := osStep_loaderWait hw
            exact .ldAgain hline hphase hdone
  · next hline =>
      rcases nextSlot_cases h with ⟨hphase, rfl⟩ | ⟨hphase, hdone, w, hw, rfl⟩
      · exact .ldAnnounce (Or.inl hline) hphase
      · have hstep := ldStep_lines hw
        rw [hline] at hstep
        cases hstep
        exact .ldReturn hline hphase hdone
  · next hline =>
      obtain ⟨hphase, w, hw, rfl⟩ := detachEvent_cases h
      have hstep := ldStep_lines hw
      rw [hline] at hstep
      cases hstep
      exact .ldDetach hline hphase
  · next hwait hslot hdetach =>
      obtain ⟨w, hw, rfl⟩ := Option.map_eq_some_iff.mp h
      exact .ld w hslot hdetach (fun hline => absurd hline hwait) hw

/-- **What a step of the program can do.** -/
theorem simStep_cases {s t : Simulator μ n} {l : SimLabel n} (h : simStep cfg s l = some t) :
    SimStep cfg s l t := by
  cases l with
  | timer =>
      obtain ⟨u, hu, rfl⟩ := Option.map_eq_some_iff.mp h
      exact .timer u hu
  | cpu i => exact cpuThread_cases h
  | loader => exact ldThread_cases h
  | main => exact .main t h

/-- `main` leaves the threads alone, and of the timer it sets `timer_stop` only. -/
theorem mainThread_frame {s t : Simulator μ n} (h : mainThread s = some t) :
    t.os = s.os ∧ (t.timer = s.timer ∨
      s.main = .stopTimer ∧ t.timer = { s.timer with timerStop := true }) := by
  rw [mainThread] at h
  split at h
  case h_3 hmain =>
    obtain ⟨u, hu, rfl⟩ := Option.map_eq_some_iff.mp h
    exact ⟨rfl, Or.inr ⟨hmain, (Option.some.inj hu).symm⟩⟩
  all_goals
    repeat' split at h
    all_goals first
      | (obtain rfl := Option.some.inj h; exact ⟨rfl, Or.inl rfl⟩)
      | cases h

end Lines

/-! ## The projections -/

section Projections
variable {cfg : Setup μ}

/-- What a step of `main` leaves as it is. -/
structure MainFrame (s t : Simulator μ n) : Prop where
  os : t.os = s.os
  dev : t.timer.dev = s.timer.dev
  time : t.timer.time = s.timer.time
  pc : t.timer.pc = s.timer.pc

/-- All that the threads read. -/
theorem mainFrame {s t : Simulator μ n} (h : mainThread s = some t) : MainFrame s t := by
  obtain ⟨hos, htimer | ⟨-, htimer⟩⟩ := mainThread_frame h
  · exact ⟨hos, by rw [htimer], by rw [htimer], by rw [htimer]⟩
  · exact ⟨hos, by rw [htimer], by rw [htimer], by rw [htimer]⟩

theorem MainFrame.cpuId {s t : Simulator μ n} (h : MainFrame s t) (i : Fin n) :
    t.cpuId i = s.cpuId i := by
  rw [Simulator.cpuId, Simulator.cpuId, h.dev]

theorem MainFrame.ldId {s t : Simulator μ n} (h : MainFrame s t) : t.ldId = s.ldId := by
  rw [Simulator.ldId, Simulator.ldId, h.dev]

/-- **The timer of the program** is the timer with any `num_cpus + 1` devices. -/
theorem timerSystem_simulates :
    (Timer.timerSystem (cfg.numCpus + 1)).Simulates (simulator cfg) Simulator.timer where
  init := by
    rintro s ⟨mem, rfl⟩
    rfl
  step := by
    intro s l t h
    have hone : ∀ l, Timer.step (cfg.numCpus + 1) s.timer l = some t.timer →
        ∃ ls, (Timer.timerSystem (cfg.numCpus + 1)).run s.timer ls = some t.timer := by
      intro l hl
      exact ⟨[l], Lts.run_cons_of_step _ hl []⟩
    cases simStep_cases h with
    | timer u hu => exact hone .timer hu
    | cpu i w _ _ _ => exact ⟨[], rfl⟩
    | cpuAnnounce i _ hphase =>
        exact hone (.announce (cpuDev i)) (if_pos ⟨cpuDev_lt i, hphase⟩)
    | cpuReturn i _ hphase hdone =>
        exact hone (.wake (cpuDev i)) (if_pos ⟨cpuDev_lt i, hphase, hdone⟩)
    | cpuDetach i _ hphase => exact hone (.detach (cpuDev i)) (if_pos ⟨cpuDev_lt i, hphase⟩)
    | ld w _ _ _ _ => exact ⟨[], rfl⟩
    | ldAnnounce _ hphase => exact hone (.announce ldDev) (if_pos ⟨ldDev_lt _, hphase⟩)
    | ldReturn _ hphase hdone =>
        exact hone (.wake ldDev) (if_pos ⟨ldDev_lt _, hphase, hdone⟩)
    | ldAgain _ hphase hdone => exact hone (.wake ldDev) (if_pos ⟨ldDev_lt _, hphase, hdone⟩)
    | ldDetach _ hphase => exact hone (.detach ldDev) (if_pos ⟨ldDev_lt _, hphase⟩)
    | main _ ht =>
        rcases (mainThread_frame ht).2 with htimer | ⟨-, htimer⟩
        · exact ⟨[], congrArg some htimer.symm⟩
        · exact hone .stopTimer (congrArg some htimer.symm)

/-- A step of the program is at most one step of a CPU or of the loader. -/
theorem simStep_os {s t : Simulator μ cfg.numCpus} {l : SimLabel cfg.numCpus}
    (h : simStep cfg s l = some t) :
    t.os = s.os ∨ ∃ l', osStep cfg.toConfig s.os l' = some t.os := by
  cases simStep_cases h with
  | cpu i w _ _ hw => exact Or.inr ⟨.cpu i, hw⟩
  | cpuReturn i hline _ _ | cpuDetach i hline _ =>
    refine Or.inr ⟨.cpu i, ?_⟩
    simp only [osStep, cpuStep, hline]
    rfl
  | ld w _ _ _ hw => exact Or.inr ⟨.loader, hw⟩
  | ldReturn hline _ _ | ldDetach hline _ =>
    refine Or.inr ⟨.loader, ?_⟩
    simp only [osStep, ldStep, hline]
    rfl
  | main _ ht => exact Or.inl (mainThread_frame ht).1
  | _ => exact Or.inl rfl

/-- **The threads of the program** are CPUs and a loader for which `next_slot` may return at any
time. -/
theorem osSystem_simulates :
    (osSystem cfg.toConfig).Simulates (simulator cfg) Simulator.os where
  init := by
    rintro s ⟨mem, rfl⟩
    exact ⟨mem, rfl⟩
  step := by
    intro s l t h
    rcases simStep_os h with hos | ⟨l', hl'⟩
    · exact ⟨[], congrArg some hos.symm⟩
    · exact ⟨[l'], Lts.run_cons_of_step _ hl' []⟩

end Projections

/-! ## A configuration -/

/-- One process of one instruction on `n` CPUs. -/
abbrev oneCalc (n : ℕ) : Setup Unit where
  timeSlot := 1
  numCpus := n
  ldProcesses := [⟨1, [⟨.calc, 0, 0, 0, 0⟩]⟩]
  exec _ _ _ := some ()
  startTime _ := 0

/-- On one CPU: the process is loaded in slot 0, run in slot 1 and reported in slot 2. -/
def oneCpuRun : List (SimLabel 1) :=
  List.replicate 5 .loader ++ List.replicate 3 (.cpu 0) ++ List.replicate 6 .timer ++
    List.replicate 3 .loader ++ [.timer] ++ List.replicate 6 (.cpu 0) ++
    List.replicate 8 .timer ++ List.replicate 5 (.cpu 0) ++ List.replicate 9 .timer

/-- What `main` does afterwards. -/
def mainRun : List (SimLabel 1) := List.replicate 8 .main

/-- On two CPUs: CPU 1 runs the process in slot 0, reports it in slot 1 and exits, and CPU 0 is
idle for `k` more slots. -/
def twoCpusRun (k : ℕ) : List (SimLabel 2) :=
  let cpu0 := .cpu ⟨0, Nat.two_pos⟩
  let cpu1 := .cpu ⟨1, Nat.one_lt_two⟩
  List.replicate 5 .loader ++ List.replicate 3 cpu0 ++ List.replicate 5 cpu1 ++
    List.replicate 7 .timer ++ List.replicate 3 .loader ++ [.timer] ++
    List.replicate 5 cpu1 ++ [.timer] ++
    (List.replicate k (List.replicate 4 cpu0 ++ List.replicate 10 .timer)).flatten

end SimOs.Os
