import SimOs.Os.Ownership
import SimOs.Sched.Work
import Mathlib.Data.Multiset.OrderedMonoid

/-!
# How a CPU shuts down

When the loader is done and nothing is left to run, `get_proc` returns `NULL` for good.
`cpu_routine` tests `done` only below the branches for a process that finished or used
up its slot.  A CPU that still holds its last, complete process takes the first of
these, gets `NULL` and leaves the loop.  A CPU without a process gets `NULL` in the
first branch, whose `continue` skips the test, so it polls forever.

## Main definitions

* `Quiet`: nothing is left to load or to run.
* `Leaving`, `Polling`: the two fates of a CPU in a quiet state.
* `shutdown_iff_holding`: which CPUs shut down.
-/

namespace SimOs.Os

open SimOs.Sched World

universe u
variable {μ : Type u} {cfg : Config μ} {n : ℕ}

/-- The loader has set `done`, all loaded processes are complete and all ready queues
are empty. -/
structure Quiet (cfg : Config μ) (w : World μ n) : Prop where
  done : w.done = true
  complete : ∀ p, p < cfg.ldProcesses.length → w.pc p = (cfg.code p).length
  empty : w.sched.AllEmpty

/-- `done` is set on the way out of the loader. -/
def Retired (w : World μ n) : Prop :=
  w.done = true → w.ld.line = .detach ∨ w.ld.line = .exited

theorem Retired.step {w v : World μ n} {l : Label n} (hw : Retired w)
    (h : osStep cfg w l = some v) : Retired v := by
  cases l with
  | cpu i =>
      obtain ⟨hld, hdone⟩ := (cpuStep_cases h).ld
      rw [Retired, hld, hdone]
      exact hw
  | loader =>
      have hstep := ldStep_lines h
      -- `done` is set already on the last two lines only
      have hearly : w.ld.line ≠ .detach → w.ld.line ≠ .exited → ¬ w.done = true :=
        fun hdetach hexited hdone => (hw hdone).elim hdetach hexited
      cases hline : w.ld.line with
      | head =>
          rw [hline] at hstep hearly
          cases hstep with
          | next => exact fun hdone => absurd hdone (hearly (by simp) (by simp))
          | done => exact fun _ => Or.inl rfl
      | wait | addRunning | addReady | slot =>
          rw [hline] at hstep hearly
          cases hstep
          exact fun hdone => absurd hdone (hearly (by simp) (by simp))
      | detach =>
          rw [hline] at hstep
          cases hstep
          exact fun _ => Or.inr rfl
      | exited =>
          rw [hline] at hstep
          cases hstep
  | loaderWait =>
      rw [osStep_loaderWait h]
      exact hw

theorem reachable_retired {w : World μ cfg.numCpus} (h : (osSystem cfg).Reachable w) :
    Retired w :=
  h.invariant (P := Retired) (by rintro w ⟨mem, rfl⟩ hdone; cases hdone)
    (fun _ _ _ hw hv => hw.step hv)

/-- Empty queues hold no process. -/
theorem allEmpty_iff_ready {α : Type u} {s : Sched α} : s.AllEmpty ↔ s.ready = 0 := by
  rw [Sched.ready, Finset.sum_eq_zero_iff]
  apply forall_congr'
  intro q
  rw [Finset.mem_range, Multiset.coe_eq_zero, Queue.size_eq_zero]

/-- On empty queues `get_proc` returns `NULL` and leaves them empty. -/
theorem getProc_of_allEmpty {α : Type u} {prio : α → ℕ} {s : Sched α} (hs : s.Counters)
    (h : s.AllEmpty) : (getProc prio s).1 = none ∧ (getProc prio s).2.AllEmpty := by
  have hready := ready_getMlqProc prio hs
  rw [allEmpty_iff_ready.mp h] at hready
  obtain ⟨hnone, hempty⟩ := add_eq_zero.mp hready.symm
  refine ⟨?_, allEmpty_iff_ready.mpr hempty⟩
  rwa [Multiset.coe_eq_zero, Option.toList_eq_nil_iff] at hnone

/-- In a quiet state no process has an instruction left. -/
theorem Quiet.pc_eq {w : World μ n} (hq : Quiet cfg w) (hw : Sound cfg w) (p : ℕ) :
    w.pc p = (cfg.code p).length := by
  rcases Nat.lt_or_ge p cfg.ldProcesses.length with hlt | hge
  · exact hq.complete p hlt
  · -- No code was loaded, so `pc` cannot have moved.
    have hcode : cfg.code p = [] := by rw [Config.code, List.getElem?_eq_none hge]; rfl
    have := hw.pc_le p
    rw [hcode, List.length_nil] at this ⊢
    omega

/-- A quiet state stays quiet, whatever a CPU does. -/
theorem Quiet.cpu {w v : World μ n} {i : Fin n} (hq : Quiet cfg w) (hw : Sound cfg w)
    (h : CpuCase cfg w i v) : Quiet cfg v := by
  cases h with
  | goto c _ _ => exact ⟨hq.done, hq.complete, hq.empty⟩
  | finish p t _ _ => exact ⟨hq.done, hq.complete, hq.empty⟩
  | enlist p t _ => exact ⟨hq.done, hq.complete, hq.empty⟩
  | put p t s hcpu _ =>
      refine absurd (hq.pc_eq hw p) (hw.putting i p ?_ ?_)
      · rw [hcpu]; exact Or.inr rfl
      · rw [hcpu]
  | get c _ _ _ => exact ⟨hq.done, hq.complete, (getProc_of_allEmpty hw.counters hq.empty).2⟩
  | run p c v _ _ _ hv =>
      rcases run_cases hv with ⟨rfl, -⟩ | ⟨ins, mem, hins, rfl⟩
      · exact ⟨hq.done, hq.complete, hq.empty⟩
      · have hlt := (List.getElem?_eq_some_iff.mp hins).1
        exact absurd (hq.pc_eq hw p) (Nat.ne_of_lt hlt)

/-- A loader that has set `done` only exits. -/
theorem ldStep_of_done {w v : World μ n} (hr : Retired w) (hdone : w.done = true)
    (h : ldStep cfg w = some v) : v = { w with ld := ⟨.exited, w.ld.i⟩ } := by
  have hstep := ldStep_lines h
  rcases hr hdone with hline | hline
  · rw [hline] at hstep
    cases hstep
    rfl
  · rw [hline] at hstep
    cases hstep

/-- **A quiet state stays quiet.** -/
theorem Quiet.step {w v : World μ n} {l : Label n} (hq : Quiet cfg w) (hw : Sound cfg w)
    (hr : Retired w) (h : osStep cfg w l = some v) : Quiet cfg v := by
  cases l with
  | cpu i => exact hq.cpu hw (cpuStep_cases h)
  | loader =>
      rw [ldStep_of_done hr hq.done h]
      exact ⟨hq.done, hq.complete, hq.empty⟩
  | loaderWait =>
      rw [osStep_loaderWait h]
      exact hq

/-! ## The two fates of a CPU -/

/-- On the way from a complete process to the exit. -/
def Leaving (c : Cpu) : Prop :=
  c.line = .reload ∨ c.line = .check ∧ c.proc = none ∨ c.line = .detach ∨ c.line = .exited

/-- Asking for a process again and again. -/
def Polling (c : Cpu) : Prop :=
  c.proc = none ∧ (c.line = .head ∨ c.line = .load ∨ c.line = .slot)

/-- What a quiet state gives a CPU that asks for a process. -/
theorem Quiet.getProc_eq_none {w : World μ n} (hq : Quiet cfg w) (hw : Sound cfg w) :
    (getProc cfg.prio w.sched).1 = none := (getProc_of_allEmpty hw.counters hq.empty).1

/-- Its own step keeps a CPU leaving. -/
theorem Quiet.leaving_cpu {w v : World μ n} {i : Fin n} (hq : Quiet cfg w) (hw : Sound cfg w)
    (hc : Leaving (w.cpu i)) (h : cpuStep cfg w i = some v) : Leaving (v.cpu i) := by
  have hline := cpuStep_lines h
  generalize w.cpu i = c at hc hline
  obtain ⟨line, proc, t⟩ := c
  rcases hc with hl | ⟨hl, hp⟩ | hl | hl
  · obtain rfl : line = .reload := hl
    cases hline
    rw [cpu_setCpu_self]
    exact Or.inr (Or.inl ⟨rfl, hq.getProc_eq_none hw⟩)
  · obtain rfl : line = .check := hl
    obtain rfl : proc = none := hp
    cases hline
    rw [cpu_setCpu_self, hq.done]
    exact Or.inr (Or.inr (Or.inl rfl))
  · obtain rfl : line = .detach := hl
    cases hline
    rw [cpu_setCpu_self]
    exact Or.inr (Or.inr (Or.inr rfl))
  · obtain rfl : line = .exited := hl
    cases hline

/-- Its own step keeps a CPU polling. -/
theorem Quiet.polling_cpu {w v : World μ n} {i : Fin n} (hq : Quiet cfg w) (hw : Sound cfg w)
    (hc : Polling (w.cpu i)) (h : cpuStep cfg w i = some v) : Polling (v.cpu i) := by
  have hline := cpuStep_lines h
  generalize w.cpu i = c at hc hline
  obtain ⟨line, proc, t⟩ := c
  obtain ⟨hp, hl | hl | hl⟩ := hc
  · obtain rfl : proc = none := hp
    obtain rfl : line = .head := hl
    cases hline
    rw [cpu_setCpu_self]
    exact ⟨rfl, Or.inr (Or.inl rfl)⟩
  · obtain rfl : line = .load := hl
    cases hline
    rw [cpu_setCpu_self, hq.getProc_eq_none hw]
    exact ⟨rfl, Or.inr (Or.inr rfl)⟩
  · obtain rfl : line = .slot := hl
    cases hline
    rw [cpu_setCpu_self]
    exact ⟨hp, Or.inl rfl⟩

/-- At the head with a complete process, its own step makes a CPU leave. -/
theorem Quiet.leaving_head {w v : World μ n} {i : Fin n} (hq : Quiet cfg w) (hw : Sound cfg w)
    (hhead : (w.cpu i).line = .head) (hp : (w.cpu i).proc ≠ none)
    (h : cpuStep cfg w i = some v) : Leaving (v.cpu i) := by
  have hline := cpuStep_lines h
  generalize w.cpu i = c at hhead hp hline
  obtain ⟨line, proc, t⟩ := c
  obtain rfl : line = .head := hhead
  cases hline with
  | headEmpty => exact absurd rfl hp
  | headFinished p _ _ =>
      rw [cpu_setCpu_self]
      exact Or.inl rfl
  | headOver p hpc => exact absurd (hq.pc_eq hw p) hpc
  | headOn p _ hpc _ => exact absurd (hq.pc_eq hw p) hpc

/-- What a CPU's own steps preserve in a quiet state, a run preserves. -/
theorem run_cpu_invariant {P : Cpu → Prop} {i : Fin cfg.numCpus}
    (hstep : ∀ w v : World μ cfg.numCpus, Quiet cfg w → Sound cfg w → P (w.cpu i) →
      cpuStep cfg w i = some v → P (v.cpu i))
    {w w' : World μ cfg.numCpus} {ls : List (Label cfg.numCpus)} (hq : Quiet cfg w)
    (hw : Sound cfg w) (hr : Retired w) (hrun : (osSystem cfg).run w ls = some w')
    (hP : P (w.cpu i)) : P (w'.cpu i) := by
  have hinv := (osSystem cfg).run_invariant
    (P := fun w => Quiet cfg w ∧ Sound cfg w ∧ Retired w ∧ P (w.cpu i))
    (fun u l v hu hv => by
      obtain ⟨hq, hw, hr, hP⟩ := hu
      refine ⟨hq.step hw hr hv, hw.step hv, hr.step hv, ?_⟩
      by_cases hl : l = .cpu i
      · subst hl
        exact hstep u v hq hw hP hv
      · rw [osStep_cpu_of_ne hl hv]
        exact hP) hrun ⟨hq, hw, hr, hP⟩
  exact hinv.2.2.2

/-- A run in which CPU `i` moves has a first step of CPU `i`. -/
theorem run_first_cpu {i : Fin cfg.numCpus} {w w' : World μ cfg.numCpus}
    {ls : List (Label cfg.numCpus)} (hq : Quiet cfg w) (hw : Sound cfg w) (hr : Retired w)
    (hrun : (osSystem cfg).run w ls = some w') (hmem : Label.cpu i ∈ ls) :
    ∃ u v rest, Quiet cfg u ∧ Sound cfg u ∧ Retired u ∧ u.cpu i = w.cpu i ∧
      cpuStep cfg u i = some v ∧ (osSystem cfg).run v rest = some w' := by
  induction ls generalizing w with
  | nil => cases hmem
  | cons l ls ih =>
      rw [Lts.run_cons, Option.bind_eq_some_iff] at hrun
      obtain ⟨v, hv, hrun⟩ := hrun
      by_cases hl : l = .cpu i
      · subst hl
        exact ⟨w, v, ls, hq, hw, hr, rfl, hv, hrun⟩
      · have hmem' : Label.cpu i ∈ ls := (List.mem_cons.mp hmem).resolve_left (Ne.symm hl)
        obtain ⟨u, v', rest, hqu, hwu, hru, hsame, hstep, hrest⟩ :=
          ih (hq.step hw hr hv) (hw.step hv) (hr.step hv) hrun hmem'
        exact ⟨u, v', rest, hqu, hwu, hru, hsame.trans (osStep_cpu_of_ne hl hv), hstep, hrest⟩

/-- Between two iterations: the CPU is back at the head of the loop or has exited. -/
def AtBoundary (c : Cpu) : Prop := c.line = .head ∨ c.line = .exited

theorem Leaving.exited {c : Cpu} (h : Leaving c) (hend : AtBoundary c) : c.line = .exited := by
  rcases hend with hend | hend
  · rcases h with h | ⟨h, -⟩ | h | h <;> cases hend.symm.trans h
  · exact hend

theorem Polling.not_exited {c : Cpu} (h : Polling c) : c.line ≠ .exited := by
  intro hex
  rcases h.2 with h | h | h <;> cases hex.symm.trans h

/-- A CPU that is scheduled alone completes its iteration. -/
theorem Quiet.exists_iteration {w : World μ cfg.numCpus} {i : Fin cfg.numCpus}
    (hq : Quiet cfg w) (hw : Sound cfg w) (hhead : (w.cpu i).line = .head) :
    ∃ ls w', Label.cpu i ∈ ls ∧ (osSystem cfg).run w ls = some w' ∧ AtBoundary (w'.cpu i) := by
  have hnone := hq.getProc_eq_none hw
  rcases hcpu : w.cpu i with ⟨line, proc, t⟩
  obtain rfl : line = .head := by rw [hcpu] at hhead; exact hhead
  cases proc with
  | none =>
      let w₁ := w.setCpu i ⟨.load, none, t⟩
      let w₂ := (w₁.setSched (getProc cfg.prio w.sched).2).setCpu i ⟨.slot, none, t⟩
      have h₁ : cpuStep cfg w i = some w₁ := by simp only [cpuStep, hcpu, w₁]
      have h₂ : cpuStep cfg w₁ i = some w₂ := by
        simp only [cpuStep, w₁, w₂, cpu_setCpu_self, sched_setCpu, hnone, Option.isNone_none,
          if_true]
      have h₃ : cpuStep cfg w₂ i = some (w₂.setCpu i ⟨.head, none, t⟩) := by
        simp only [cpuStep, w₂, cpu_setCpu_self]
      refine ⟨[.cpu i, .cpu i, .cpu i], w₂.setCpu i ⟨.head, none, t⟩, by simp, ?_, ?_⟩
      · rw [Lts.run_cons_of_step _ h₁, Lts.run_cons_of_step _ h₂, Lts.run_cons_of_step _ h₃,
          Lts.run_nil]
      · rw [cpu_setCpu_self]
        exact Or.inl rfl
  | some p =>
      let w₁ := (w.report p).setCpu i ⟨.reload, some p, 0⟩
      let w₂ := (w₁.setSched (getProc cfg.prio w.sched).2).setCpu i ⟨.check, none, 0⟩
      let w₃ := w₂.setCpu i ⟨.detach, none, 0⟩
      have h₁ : cpuStep cfg w i = some w₁ := by
        simp only [cpuStep, hcpu, hq.pc_eq hw p, if_true, w₁]
      have h₂ : cpuStep cfg w₁ i = some w₂ := by
        simp only [cpuStep, w₁, w₂, cpu_setCpu_self, sched_setCpu]
        exact congrArg some (congrArg₂ (World.setCpu · i) rfl (by rw [← hnone]; rfl))
      have h₃ : cpuStep cfg w₂ i = some w₃ := by
        have hdone : w₂.done = true := hq.done
        simp only [cpuStep, w₃, hdone]
        simp only [w₂, cpu_setCpu_self, if_true]
      have h₄ : cpuStep cfg w₃ i = some (w₃.setCpu i ⟨.exited, none, 0⟩) := by
        simp only [cpuStep, w₃, cpu_setCpu_self]
      refine ⟨[.cpu i, .cpu i, .cpu i, .cpu i], w₃.setCpu i ⟨.exited, none, 0⟩, by simp, ?_, ?_⟩
      · rw [Lts.run_cons_of_step _ h₁, Lts.run_cons_of_step _ h₂, Lts.run_cons_of_step _ h₃,
          Lts.run_cons_of_step _ h₄, Lts.run_nil]
      · rw [cpu_setCpu_self]
        exact Or.inr rfl

/-- **Which CPUs shut down**: in a quiet state, a CPU at the head of the loop completes
an iteration, and however the other threads interleave with it, it has then exited if
and only if it held a process before. -/
theorem shutdown_iff_holding {w : World μ cfg.numCpus} (hreach : (osSystem cfg).Reachable w)
    (hq : Quiet cfg w) {i : Fin cfg.numCpus} (hhead : (w.cpu i).line = .head) :
    (∃ ls w', Label.cpu i ∈ ls ∧ (osSystem cfg).run w ls = some w' ∧ AtBoundary (w'.cpu i)) ∧
    ∀ ls w', Label.cpu i ∈ ls → (osSystem cfg).run w ls = some w' → AtBoundary (w'.cpu i) →
      ((w'.cpu i).line = .exited ↔ (w.cpu i).proc ≠ none) := by
  have hw := reachable_sound hreach
  have hr := reachable_retired hreach
  refine ⟨hq.exists_iteration hw hhead, ?_⟩
  intro ls w' hmem hrun hend
  constructor
  · intro hex hp
    have hpoll : Polling (w'.cpu i) :=
      run_cpu_invariant (fun _ _ hq hw hc h => hq.polling_cpu hw hc h) hq hw hr hrun
        ⟨hp, Or.inl hhead⟩
    exact hpoll.not_exited hex
  · intro hp
    obtain ⟨u, v, rest, hqu, hwu, hru, hsame, hstep, hrest⟩ := run_first_cpu hq hw hr hrun hmem
    have hleave : Leaving (v.cpu i) :=
      hqu.leaving_head hwu (hsame ▸ hhead) (hsame ▸ hp) hstep
    have hleft : Leaving (w'.cpu i) :=
      run_cpu_invariant (fun _ _ hq hw hc h => hq.leaving_cpu hw hc h)
        (hqu.step hwu hru (l := .cpu i) hstep) (hwu.step (l := .cpu i) hstep)
        (hru.step (l := .cpu i) hstep) hrest hleave
    exact hleft.exited hend

/-- The loader runs to its end and then CPU `i` makes `k` steps, while no other CPU gets a
process. -/
def soleCpuRun (i : Fin n) (k : ℕ) : List (Label n) :=
  List.replicate 7 .loader ++ List.replicate k (.cpu i)

/-- After 15 steps CPU 0 is back at the head and holds the complete process. -/
theorem shutdown_iff_holding_last :
    ∃ w : World Unit 2, (osSystem twoCalcs).Reachable w ∧ Quiet twoCalcs w ∧
      (w.cpu 0).line = .head ∧
      ∀ ls (w' : World Unit 2), Label.cpu 0 ∈ ls → (osSystem twoCalcs).run w ls = some w' →
        AtBoundary (w'.cpu 0) → ((w'.cpu 0).line = .exited ↔ (w.cpu 0).proc ≠ none) := by
  have hrun : (((osSystem twoCalcs).run (World.init 2 ()) (soleCpuRun 0 15)).any fun w =>
      w.done = true ∧ (∀ p, p < 1 → w.pc p = (twoCalcs.code p).length) ∧ w.sched.AllEmpty ∧
        (w.cpu 0).line = .head) = true := by decide +kernel
  obtain ⟨w, hw, hfound⟩ := (Option.any_eq_true _ _).mp hrun
  obtain ⟨hdone, hcomplete, hempty, hhead⟩ := of_decide_eq_true hfound
  have hreach : (osSystem twoCalcs).Reachable w := ⟨World.init 2 (), _, ⟨(), rfl⟩, hw⟩
  have hq : Quiet twoCalcs w := ⟨hdone, hcomplete, hempty⟩
  exact ⟨w, hreach, hq, hhead, (shutdown_iff_holding hreach hq hhead).2⟩

/-- After 19 steps CPU 0 has exited.  CPU 1, which holds no process, asks once more and
stays in the loop. -/
theorem idle_cpu_keeps_polling :
    ∃ w w' : World Unit 2, (osSystem twoCalcs).Reachable w ∧ Quiet twoCalcs w ∧
      (w.cpu 1).line = .head ∧
      (osSystem twoCalcs).run w [.cpu 1, .cpu 1, .cpu 1] = some w' ∧
      (w'.cpu 1).line = .head := by
  have hrun : (((osSystem twoCalcs).run (World.init 2 ()) (soleCpuRun 0 19)).any fun w =>
      w.done = true ∧ (∀ p, p < 1 → w.pc p = (twoCalcs.code p).length) ∧ w.sched.AllEmpty ∧
        (w.cpu 1).line = .head ∧
        ((osSystem twoCalcs).run w [.cpu 1, .cpu 1, .cpu 1]).any fun w' =>
          (w'.cpu 1).line = .head) = true := by decide +kernel
  obtain ⟨w, hw, hfound⟩ := (Option.any_eq_true _ _).mp hrun
  obtain ⟨hdone, hcomplete, hempty, hhead, hnext⟩ := of_decide_eq_true hfound
  obtain ⟨w', hw', hhead'⟩ := (Option.any_eq_true _ _).mp hnext
  exact ⟨w, w', ⟨World.init 2 (), _, ⟨(), rfl⟩, hw⟩, ⟨hdone, hcomplete, hempty⟩, hhead, hw',
    of_decide_eq_true hhead'⟩

end SimOs.Os
