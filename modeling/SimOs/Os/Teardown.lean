import SimOs.Os.Lockstep

/-!
# How the program ends

`main` joins every thread before it frees what the threads use.  The order matters: the
devices are shared with the timer, which walks `dev_list` as long as it runs, and a thread
that calls `next_slot` or `detach_event` keeps a pointer into it.

## Main definitions

* `Joined`: what `main` has waited for, line by line.
* `Uses`: the containers a step looks at.
* `no_use_after_free`: no step looks at a container that was freed.
-/

namespace SimOs.Os

open SimOs.Sched World Simulator

universe u
variable {μ : Type u} {cfg : Setup μ} {n : ℕ}

/-- All CPUs have exited. -/
def World.Stopped (w : World μ n) : Prop := ∀ i, (w.cpu i).line = .exited

/-- What `main` has waited for. -/
def Joined (s : Simulator μ n) : Prop :=
  match s.main with
  | .joinCpu k => (∀ i : Fin n, (i : ℕ) < k → (s.os.cpu i).line = .exited) ∧
      s.devList = containers n
  | .joinLd => s.os.Stopped ∧ s.devList = containers n
  | .stopTimer => s.os.Stopped ∧ s.os.ld.line = .exited ∧ s.devList = containers n
  | .joinTimer => s.os.Stopped ∧ s.os.ld.line = .exited ∧ s.devList = containers n
  | .freeDevs => s.os.Stopped ∧ s.os.ld.line = .exited ∧ s.timer.pc = .exited
  | .returned => s.os.Stopped ∧ s.os.ld.line = .exited ∧ s.timer.pc = .exited ∧ s.devList = []

/-- `Joined` looks at the threads that have exited. -/
theorem Joined.congr {s t : Simulator μ n} (h : Joined s) (hmain : t.main = s.main)
    (hdev : t.devList = s.devList)
    (hcpu : ∀ i, (s.os.cpu i).line = .exited → (t.os.cpu i).line = .exited)
    (hld : s.os.ld.line = .exited → t.os.ld.line = .exited)
    (htimer : s.timer.pc = .exited → t.timer.pc = .exited) : Joined t := by
  have hall : s.os.Stopped → t.os.Stopped := fun hs i => hcpu i (hs i)
  rw [Joined] at h ⊢
  rw [hmain, hdev]
  cases hline : s.main <;> simp only [hline] at h ⊢
  case joinCpu k => exact ⟨fun i hi => hcpu i (h.1 i hi), h.2⟩
  case joinLd => exact ⟨hall h.1, h.2⟩
  case stopTimer | joinTimer => exact ⟨hall h.1, hld h.2.1, h.2.2⟩
  case freeDevs => exact ⟨hall h.1, hld h.2.1, htimer h.2.2⟩
  case returned => exact ⟨hall h.1, hld h.2.1, htimer h.2.2.1, h.2.2.2⟩

/-- A step of `main`. -/
theorem Joined.main {s t : Simulator μ n} (h : Joined s) (ht : mainThread s = some t) :
    Joined t := by
  rw [mainThread] at ht
  rw [Joined] at h
  cases hline : s.main <;> simp only [hline] at h ht
  case joinCpu k =>
    split at ht
    · next hk =>
        obtain ⟨hexited, ht⟩ := Option.ite_none_right_eq_some.mp ht
        obtain rfl := Option.some.inj ht
        refine ⟨fun i hi => ?_, h.2⟩
        rcases Nat.lt_succ_iff_lt_or_eq.mp hi with hlt | heq
        · exact h.1 i hlt
        · obtain rfl : i = ⟨k, hk⟩ := Fin.ext heq
          exact hexited
    · next hk =>
        obtain rfl := Option.some.inj ht
        exact ⟨fun i => h.1 i (by omega), h.2⟩
  case joinLd =>
    obtain ⟨hexited, ht⟩ := Option.ite_none_right_eq_some.mp ht
    obtain rfl := Option.some.inj ht
    exact ⟨h.1, hexited, h.2⟩
  case stopTimer =>
    obtain ⟨u, -, rfl⟩ := Option.map_eq_some_iff.mp ht
    exact h
  case joinTimer =>
    obtain ⟨hexited, ht⟩ := Option.ite_none_right_eq_some.mp ht
    obtain rfl := Option.some.inj ht
    exact ⟨h.1, h.2.1, hexited⟩
  case freeDevs =>
    split at ht
    · next hempty =>
        obtain rfl := Option.some.inj ht
        exact ⟨h.1, h.2.1, h.2.2, hempty⟩
    · obtain rfl := Option.some.inj ht
      exact h
  case returned => cases ht

/-- A thread that has exited stays so. -/
theorem Joined.step {s t : Simulator μ n} {l : SimLabel n} (h : Joined s)
    (hstep : simStep cfg s l = some t) : Joined t := by
  cases simStep_cases hstep with
  | timer u hu =>
      refine h.congr rfl rfl (fun _ => id) id fun hpc => ?_
      rw [Timer.timerRoutine, hpc] at hu
      cases hu
  | cpu i w hslot hdetach hw =>
      refine h.congr rfl rfl (fun j hj => ?_) (fun hld => ?_) id
      · have hji : j ≠ i := by
          rintro rfl
          exact cpuStep_line_ne_exited hw hj
        rwa [os_setOs, (cpuStep_cases hw).cpu_of_ne hji]
      · rwa [os_setOs, (cpuStep_cases hw).ld.1]
  | cpuAnnounce i _ _ => exact h.congr rfl rfl (fun _ => id) id id
  | cpuReturn i hline _ _ =>
      refine h.congr rfl rfl (fun j hj => ?_) id id
      rcases eq_or_ne j i with rfl | hji
      · rw [hline] at hj
        cases hj
      · simpa [hji] using hj
  | cpuDetach i hline _ =>
      refine h.congr rfl rfl (fun j hj => ?_) id id
      rcases eq_or_ne j i with rfl | hji
      · simp
      · simpa [hji] using hj
  | ld w _ _ _ hw =>
      have hld := ldStep_lines hw
      refine h.congr rfl rfl (fun j hj => ?_) (fun hline => ?_) id
      · rwa [os_setOs, hld.frame.1]
      · rw [hline] at hld
        cases hld
  | ldAnnounce _ _ => exact h.congr rfl rfl (fun _ => id) id id
  | ldReturn hline _ _ =>
      refine h.congr rfl rfl (fun _ => id) (fun hld => ?_) id
      rw [hline] at hld
      cases hld
  | ldAgain _ _ _ => exact h.congr rfl rfl (fun _ => id) id id
  | ldDetach _ _ => exact h.congr rfl rfl (fun _ => id) (fun _ => rfl) id
  | main t ht => exact h.main ht

theorem reachable_joined {s : Simulator μ cfg.numCpus} (h : (simulator cfg).Reachable s) :
    Joined s := by
  refine h.invariant (P := Joined) ?_ fun _ _ _ hs hstep => hs.step hstep
  rintro s ⟨mem, rfl⟩
  exact ⟨fun i hi => absurd hi (Nat.not_lt_zero _), rfl⟩

/-- The containers that a step looks at. -/
def Uses (s : Simulator μ n) : SimLabel n → ℕ → Prop
  | .timer, c =>
      match s.timer.pc with
      | .wait k _ _ => k < n + 1 ∧ (containers n)[k]? = some c
      | .release k _ _ => k < n + 1 ∧ (containers n)[k]? = some c
      | _ => False
  | .cpu i, c =>
      ((s.os.cpu i).line = .slot ∨ (s.os.cpu i).line = .detach) ∧
        (containers n)[cpuDev i]? = some c
  | .loader, c =>
      (s.os.ld.line = .wait ∨ s.os.ld.line = .slot ∨ s.os.ld.line = .detach) ∧
        (containers n)[ldDev]? = some c
  | .main, _ => False

/-- Until all other threads have exited no container is freed. -/
theorem Joined.devList {s : Simulator μ n} (h : Joined s)
    (hrun : ¬ s.os.Stopped ∨ s.os.ld.line ≠ .exited ∨ s.timer.pc ≠ .exited) :
    s.devList = containers n := by
  rw [Joined] at h
  cases hline : s.main <;> simp only [hline] at h
  case joinCpu k => exact h.2
  case joinLd => exact h.2
  case stopTimer | joinTimer => exact h.2.2
  case freeDevs | returned =>
    rcases hrun with hrun | hrun | hrun
    · exact absurd h.1 hrun
    · exact absurd h.2.1 hrun
    · first
        | exact absurd h.2.2 hrun
        | exact absurd h.2.2.1 hrun

/-- **No use after free**: whatever the interleaving, every container that a step of the timer,
of a CPU or of the loader looks at is still allocated, and when `main` returns all of them are
freed and all threads have exited. -/
theorem no_use_after_free {s : Simulator μ cfg.numCpus} (h : (simulator cfg).Reachable s) :
    (∀ l c, Uses s l c → c ∈ s.devList) ∧
      (s.main = .returned → s.devList = [] ∧ s.os.Stopped ∧ s.os.ld.line = .exited ∧
        s.timer.pc = .exited) := by
  have hjoin := reachable_joined h
  refine ⟨?_, ?_⟩
  · intro l c huse
    cases l with
    | timer =>
        have hpc : s.timer.pc ≠ .exited := by
          intro hpc
          simp only [Uses, hpc] at huse
        rw [hjoin.devList (Or.inr (Or.inr hpc))]
        cases hpos : s.timer.pc <;> simp only [Uses, hpos] at huse
        case wait | release => exact List.mem_of_getElem? huse.2
    | cpu i =>
        have hrun : ¬ s.os.Stopped := by
          intro hall
          have hline := hall i
          rcases huse.1 with hslot | hdet
          · cases hslot.symm.trans hline
          · cases hdet.symm.trans hline
        rw [hjoin.devList (Or.inl hrun)]
        exact List.mem_of_getElem? huse.2
    | loader =>
        have hrun : s.os.ld.line ≠ .exited := by
          intro hline
          rcases huse.1 with hl | hl | hl <;> cases hl.symm.trans hline
        rw [hjoin.devList (Or.inr (Or.inl hrun))]
        exact List.mem_of_getElem? huse.2
    | main => exact huse.elim
  · intro hmain
    rw [Joined, hmain] at hjoin
    exact ⟨hjoin.2.2.2, hjoin.1, hjoin.2.1, hjoin.2.2.1⟩

theorem no_use_after_free_oneCalc :
    ∃ s, (simulator (oneCalc 1)).Reachable s ∧ s.main = .returned ∧
      (∀ l c, Uses s l c → c ∈ s.devList) ∧
      (s.main = .returned → s.devList = [] ∧ s.os.Stopped ∧ s.os.ld.line = .exited ∧
        s.timer.pc = .exited) := by
  have hrun : (((simulator (oneCalc 1)).run (Simulator.init 1 ()) (oneCpuRun ++ mainRun)).any
      fun s => s.main = .returned) = true := by decide +kernel
  obtain ⟨s, hs, hmain⟩ := (Option.any_eq_true _ _).mp hrun
  have hreach : (simulator (oneCalc 1)).Reachable s := ⟨_, _, ⟨(), rfl⟩, hs⟩
  exact ⟨s, hreach, of_decide_eq_true hmain, no_use_after_free hreach⟩

end SimOs.Os
