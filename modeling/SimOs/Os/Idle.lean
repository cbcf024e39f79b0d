import SimOs.Os.Progress
import SimOs.Os.Loading
import SimOs.Os.Teardown

/-!
# A CPU without work never stops

`cpu_routine` tests `done` only after it has given a process away.  A CPU that holds no
process and gets none goes back to `next_slot` by the `continue` before the test, whether the
loader is done or not.  So a CPU exits only after it has run a process, and when the CPUs
outnumber the slots of work the program runs for ever.

## Main definitions

* `Veteran`: a CPU that has run a process since it was idle.
* `veterans_le_totalUsed`: each of them has used a slot.
* `never_returns`: `main` does not return if there are more CPUs than slots of work.
-/

namespace SimOs.Os

open SimOs.Sched World Simulator

universe u
variable {μ : Type u} {n : ℕ}

/-- A CPU that has run a process, and was not idle since. -/
def Veteran (c : Cpu) : Prop :=
  match c.line with
  | .slot | .head => c.proc ≠ none
  | .check => c.proc = none
  | .putRunning | .putReady | .reload | .detach | .exited => True
  | .load | .run => False

instance (c : Cpu) : Decidable (Veteran c) := by
  rw [Veteran]
  cases c.line <;> infer_instance

/-- The CPUs that have run a process, and were not idle since. -/
def veterans (w : World μ n) : Finset (Fin n) := Finset.univ.filter fun i => Veteran (w.cpu i)

theorem mem_veterans {w : World μ n} {i : Fin n} : i ∈ veterans w ↔ Veteran (w.cpu i) := by
  simp [veterans]

section Steps
variable {cfg : Config μ} {w v : World μ n}

/-- Only a call of `run` makes a CPU a veteran. -/
theorem veteran_cpu {i : Fin n} (h : cpuStep cfg w i = some v) (hrun : (w.cpu i).line ≠ .run)
    (hvet : Veteran (v.cpu i)) : Veteran (w.cpu i) := by
  have hlines := cpuStep_lines h
  rcases hcpu : w.cpu i with ⟨line, proc, t⟩
  rw [hcpu] at hlines hrun
  cases hlines with
  | run p _ u hu => exact absurd rfl hrun
  | load =>
      rw [cpu_setCpu_self] at hvet
      cases hget : (getProc cfg.prio w.sched).1 <;> simp [Veteran, hget] at hvet
  | checkEmpty => simp [Veteran]
  | _ =>
      rw [cpu_setCpu_self] at hvet
      simp_all [Veteran]

/-- **One step of a CPU.** -/
theorem veterans_cpu {i : Fin n} (hw : Sound cfg w) (hu : Unspent cfg w)
    (hlen : w.ld.i ≤ cfg.ldProcesses.length) (h : cpuStep cfg w i = some v)
    (hle : (veterans w).card ≤ w.totalUsed cfg) : (veterans v).card ≤ v.totalUsed cfg := by
  have hcase := cpuStep_cases h
  by_cases hrun : (w.cpu i).line = .run
  · have hused := totalUsed_run hw hu hlen hrun h
    have hsub : veterans v ⊆ insert i (veterans w) := by
      intro j hj
      rw [Finset.mem_insert]
      by_cases hji : j = i
      · exact Or.inl hji
      · rw [mem_veterans, hcase.cpu_of_ne hji] at hj
        exact Or.inr (mem_veterans.mpr hj)
    have hcard := (Finset.card_le_card hsub).trans (Finset.card_insert_le _ _)
    omega
  · have hused := totalUsed_cpu hw h
    have hsub : veterans v ⊆ veterans w := by
      intro j hj
      rw [mem_veterans] at hj ⊢
      by_cases hji : j = i
      · subst hji
        exact veteran_cpu h hrun hj
      · rwa [hcase.cpu_of_ne hji] at hj
    have hcard := Finset.card_le_card hsub
    omega

end Steps

variable {cfg : Setup μ}

/-- **Every veteran has used a slot.** -/
theorem veterans_le_totalUsed {s : Simulator μ cfg.numCpus} (h : (simulator cfg).Reachable s) :
    (veterans s.os).card ≤ s.os.totalUsed cfg.toConfig := by
  refine h.invariant_of (P := fun s => (veterans s.os).card ≤ s.os.totalUsed cfg.toConfig) ?_ ?_
  · rintro s ⟨mem, rfl⟩
    simp [veterans, Veteran, Simulator.init, World.init]
  · intro s l t hs hle hstep
    rcases simStep_os hstep with hos | ⟨l', hl'⟩
    · rwa [hos]
    · cases l' with
      | cpu i =>
          exact veterans_cpu (reachable_locked hs).sound (reachable_unspent (reachable_os hs))
            (reachable_punctual hs).le_length hl' hle
      | loader =>
          obtain ⟨hcpu, -, hpc, hfin⟩ := (ldStep_lines hl').frame
          rw [totalUsed_congr hpc hcpu hfin, veterans, hcpu]
          exact hle
      | loaderWait =>
          rw [osStep_loaderWait hl']
          exact hle

/-- **More CPUs than slots of work**: if the configuration has more CPUs than its processes have
instructions (counting one for a process without any), then some CPU never gets to run
anything, and `main` waits for it for ever, whatever the interleaving. -/
theorem never_returns
    (hwork : ∑ p ∈ Finset.range cfg.ldProcesses.length, max (cfg.code p).length 1 < cfg.numCpus)
    {s : Simulator μ cfg.numCpus} (h : (simulator cfg).Reachable s) :
    (∃ i, (s.os.cpu i).line ≠ .exited) ∧ s.main ≠ .returned := by
  have hle := veterans_le_totalUsed h
  have hused := (reachable_locked h).sound.totalUsed_le
  simp only [Config.cost] at hused
  have hnot : ∃ i, (s.os.cpu i).line ≠ .exited := by
    by_contra hall
    simp only [not_exists, ne_eq, not_not] at hall
    have huniv : veterans s.os = Finset.univ := by
      rw [veterans, Finset.filter_eq_self]
      intro i _
      simp [Veteran, hall i]
    rw [huniv, Finset.card_univ, Fintype.card_fin] at hle
    omega
  refine ⟨hnot, fun hmain => ?_⟩
  obtain ⟨i, hi⟩ := hnot
  have hjoin := reachable_joined h
  simp only [Joined, hmain] at hjoin
  exact hi (hjoin.1 i)

theorem never_returns_oneCalc :
    ∃ s, (simulator (oneCalc 2)).Reachable s ∧ s.os.finished = [0] ∧
      (∃ i, (s.os.cpu i).line ≠ .exited) ∧ s.main ≠ .returned := by
  have hrun : (((simulator (oneCalc 2)).run (Simulator.init 2 ()) (twoCpusRun 0)).any fun s =>
      s.os.finished = [0]) = true := by decide +kernel
  obtain ⟨s, hs, hfin⟩ := (Option.any_eq_true _ _).mp hrun
  have hreach : (simulator (oneCalc 2)).Reachable s := ⟨_, _, ⟨(), rfl⟩, hs⟩
  exact ⟨s, hreach, of_decide_eq_true hfin, never_returns (by decide) hreach⟩

end SimOs.Os
