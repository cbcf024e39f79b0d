import SimOs.Os.Loading
import Mathlib.Algebra.Order.BigOperators.Group.Finset

/-!
# How fast processes run

A CPU calls `run` at most once in a slot, and a process that one CPU has run in a slot cannot
reach another CPU before the tick: the first CPU still holds it in `next_slot`.  So a
process executes at most one instruction in a slot, and all CPUs together at most
`num_cpus`.

## Main definitions

* `Simulator.begun`: the slots in which a CPU may have called `run`.
* `At`: the slots a process may have used.
* `one_instruction_per_slot`, `earliest_finish`, `throughput`: the speed limits.
-/

namespace SimOs.Os

open SimOs.Sched World Simulator

universe u
variable {μ : Type u} {cfg : Setup μ} {n : ℕ}

/-- The slots that CPU `i` is through with, including the current one if it is in
`next_slot`. -/
def Simulator.begun (s : Simulator μ n) (i : Fin n) : ℕ :=
  (s.cpuId i).returned + if (s.os.cpu i).line = .slot then 1 else 0

/-- The slots a process may have used are those of the CPU that holds it, and if none does,
those before the current one. -/
def At (s : Simulator μ n) (p σ : ℕ) : Prop :=
  (∃ i, (s.os.cpu i).current = some p ∧ σ = s.begun i) ∨
    (∀ i, (s.os.cpu i).current ≠ some p) ∧ σ = s.timer.time

theorem exists_at (s : Simulator μ n) (p : ℕ) : ∃ σ, At s p σ := by
  by_cases hcur : ∃ i, (s.os.cpu i).current = some p
  · obtain ⟨i, hi⟩ := hcur
    exact ⟨_, Or.inl ⟨i, hi, rfl⟩⟩
  · exact ⟨_, Or.inr ⟨not_exists.mp hcur, rfl⟩⟩

/-- A CPU that has not exited may have used the current slot, but no later one. -/
theorem Locked.begun_bounds {s : Simulator μ n} (h : Locked cfg s) {i : Fin n}
    (hexited : (s.os.cpu i).line ≠ .exited) :
    s.timer.time ≤ s.begun i ∧ s.begun i ≤ s.timer.time + 1 := by
  rw [begun]
  rcases h.cpu_slot hexited with hnow | ⟨hline, -, hlate⟩
  · split <;> omega
  · rw [if_pos hline]
    omega

/-- The slots a process may have used are the past ones, and perhaps the current one. -/
theorem Locked.at_bounds {s : Simulator μ n} (h : Locked cfg s) {p σ : ℕ} (hat : At s p σ) :
    s.timer.time ≤ σ ∧ σ ≤ s.timer.time + 1 := by
  rcases hat with ⟨i, hi, rfl⟩ | ⟨-, rfl⟩
  · exact h.begun_bounds (h.line_ne_exited hi)
  · exact ⟨le_rfl, Nat.le_succ _⟩

/-- **The only step that moves a `pc`** is the call of `run`, from which a CPU goes to
`next_slot`. -/
theorem cpuStep_pc {c : Config μ} {w v : World μ n} {i : Fin n} (h : cpuStep c w i = some v) :
    v.pc = w.pc ∨ ∃ p, (w.cpu i).current = some p ∧ (w.cpu i).line = .run ∧
      v.pc = Function.update w.pc p (w.pc p + 1) ∧ (v.cpu i).current = some p ∧
      (v.cpu i).line = .slot := by
  have hline := cpuStep_lines h
  rcases hcpu : w.cpu i with ⟨line, proc, t⟩
  rw [hcpu] at hline
  cases hline with
  | run p _ u hu =>
      rw [cpu_setCpu_self]
      rcases run_cases hu with ⟨rfl, -⟩ | ⟨ins, mem, -, rfl⟩
      · exact Or.inl rfl
      · exact Or.inr ⟨p, rfl, rfl, rfl, rfl, rfl⟩
  | _ => exact Or.inl rfl

/-- What a step leaves of the slots a process may have used. -/
theorem At.congr {s t : Simulator μ n} {p σ : ℕ} (h : At s p σ) (hcpu : t.os.cpu = s.os.cpu)
    (hret : ∀ i, (t.cpuId i).returned = (s.cpuId i).returned)
    (htime : s.timer.time ≤ t.timer.time) : ∃ σ', At t p σ' ∧ σ ≤ σ' := by
  rcases h with ⟨i, hi, rfl⟩ | ⟨hno, rfl⟩
  · refine ⟨t.begun i, Or.inl ⟨i, by rwa [hcpu], rfl⟩, ?_⟩
    rw [begun, begun, hcpu, hret]
  · exact ⟨t.timer.time, Or.inr ⟨by rwa [hcpu], rfl⟩, htime⟩

/-- A CPU moves on within its slot. -/
theorem At.cpu {s : Simulator μ n} {p σ : ℕ} (h : At s p σ) (hlock : Locked cfg s) {i : Fin n}
    {w : World μ n} (hslot : (s.os.cpu i).line ≠ .slot)
    (hw : cpuStep cfg.toConfig s.os i = some w) :
    ∃ σ', At (s.setOs w) p σ' ∧ w.pc p + σ ≤ s.os.pc p + σ' := by
  have hnow := (hlock.cpu_working hslot (cpuStep_line_ne_exited hw)).2
  have hbegun : s.begun i = s.timer.time := by rw [begun, if_neg hslot, hnow, Nat.add_zero]
  have hbegun' : s.timer.time ≤ (s.setOs w).begun i := by
    rw [begun, cpuId_setOs, hnow]
    exact Nat.le_add_right _ _
  have hcase := cpuStep_cases hw
  have hother : ∀ {j}, j ≠ i → w.cpu j = s.os.cpu j := fun hj => hcase.cpu_of_ne hj
  rcases cpuStep_pc hw with hpc | ⟨q, hq, -, hpc, hq', hline'⟩
  · -- No `pc` moves, and the process is used in the current slot at most.
    rw [hpc]
    have hsame : ∀ σ', At (s.setOs w) p σ' → σ ≤ σ' →
        ∃ σ', At (s.setOs w) p σ' ∧ s.os.pc p + σ ≤ s.os.pc p + σ' :=
      fun σ' hat hle => ⟨σ', hat, Nat.add_le_add_left hle _⟩
    by_cases hp : ∃ j, j ≠ i ∧ (s.os.cpu j).current = some p
    · obtain ⟨j, hj, hcur⟩ := hp
      refine hsame ((s.setOs w).begun j) (Or.inl ⟨j, by rwa [os_setOs, hother hj], rfl⟩) ?_
      rcases h with ⟨k, hk, rfl⟩ | ⟨hno, -⟩
      · obtain rfl := current_injective hlock.sound.nodup hk hcur
        rw [begun, begun, os_setOs, hother hj, cpuId_setOs]
      · exact absurd hcur (hno j)
    · have hle : σ ≤ s.timer.time := by
        rcases h with ⟨k, hk, rfl⟩ | ⟨-, rfl⟩
        · rcases eq_or_ne k i with rfl | hne
          · exact hbegun.le
          · exact absurd ⟨k, hne, hk⟩ hp
        · exact le_rfl
      by_cases hcur : (w.cpu i).current = some p
      · exact hsame _ (Or.inl ⟨i, hcur, rfl⟩) (hle.trans hbegun')
      · refine hsame s.timer.time (Or.inr ⟨?_, rfl⟩) hle
        intro j hj
        rcases eq_or_ne j i with rfl | hne
        · exact hcur hj
        · rw [os_setOs, hother hne] at hj
          exact hp ⟨j, hne, hj⟩
  · rw [hpc]
    rcases eq_or_ne p q with rfl | hne
    · refine ⟨(s.setOs w).begun i, Or.inl ⟨i, hq', rfl⟩, ?_⟩
      have hσ : σ = s.timer.time := by
        rcases h with ⟨k, hk, rfl⟩ | ⟨hno, -⟩
        · obtain rfl := current_injective hlock.sound.nodup hk hq
          exact hbegun
        · exact absurd hq (hno i)
      rw [Function.update_self, begun, cpuId_setOs, hnow, os_setOs, if_pos hline']
      omega
    · rw [Function.update_of_ne hne]
      rcases h with ⟨k, hk, rfl⟩ | ⟨hno, rfl⟩
      · have hki : k ≠ i := by
          rintro rfl
          exact hne (Option.some.inj (hk.symm.trans hq))
        refine ⟨(s.setOs w).begun k, Or.inl ⟨k, by rwa [os_setOs, hother hki], rfl⟩, ?_⟩
        rw [begun, begun, os_setOs, hother hki, cpuId_setOs]
      · refine ⟨s.timer.time, Or.inr ⟨?_, rfl⟩, le_rfl⟩
        intro j hj
        rcases eq_or_ne j i with rfl | hji
        · exact hne (Option.some.inj (hj.symm.trans hq'))
        · rw [os_setOs, hother hji] at hj
          exact hno j hj

/-- A CPU moves on together with its device and keeps what it holds. -/
theorem At.cpuDevice {s : Simulator μ n} {p σ : ℕ} (h : At s p σ) {i : Fin n} {c : Cpu}
    {d : Timer.TimerId} (hcur : c.current = (s.os.cpu i).current)
    (hbegun : c.current ≠ none →
      s.begun i ≤ ((s.setOs (s.os.setCpu i c)).setDev (cpuDev i) d).begun i) :
    ∃ σ', At ((s.setOs (s.os.setCpu i c)).setDev (cpuDev i) d) p σ' ∧ σ ≤ σ' := by
  rcases h with ⟨k, hk, rfl⟩ | ⟨hno, rfl⟩
  · refine ⟨_, Or.inl ⟨k, ?_, rfl⟩, ?_⟩
    · rcases eq_or_ne k i with rfl | hne
      · simp [hcur, hk]
      · simp [hne, hk]
    · rcases eq_or_ne k i with rfl | hne
      · exact hbegun (by rw [hcur, hk]; simp)
      · simp [begun, hne]
  · refine ⟨_, Or.inr ⟨?_, rfl⟩, le_rfl⟩
    intro j
    rcases eq_or_ne j i with rfl | hne
    · simpa [hcur] using hno j
    · simpa [hne] using hno j

/-- **One step** uses at most as many slots as it executes instructions. -/
theorem At.step {s t : Simulator μ n} {l : SimLabel n} {p σ : ℕ} (h : At s p σ)
    (hlock : Locked cfg s) (hstep : simStep cfg s l = some t) :
    ∃ σ', At t p σ' ∧ t.os.pc p + σ ≤ s.os.pc p + σ' := by
  have hsame : t.os.pc = s.os.pc → (∃ σ', At t p σ' ∧ σ ≤ σ') →
      ∃ σ', At t p σ' ∧ t.os.pc p + σ ≤ s.os.pc p + σ' := by
    rintro hpc ⟨σ', hat, hle⟩
    exact ⟨σ', hat, by rw [hpc]; exact Nat.add_le_add_left hle _⟩
  cases simStep_cases hstep with
  | timer u hu =>
      refine hsame rfl (h.congr rfl (fun i => Timer.returned_timerRoutine hu _) ?_)
      rcases Timer.time_timerRoutine hu with htime | ⟨htime, -⟩
      · exact htime.ge
      · exact (Nat.le_succ _).trans htime.ge
  | cpu i w hslot hdetach hw => exact h.cpu hlock hslot hw
  | cpuAnnounce i hline hphase =>
      refine hsame rfl (h.congr rfl (fun j => ?_) le_rfl)
      rcases eq_or_ne j i with rfl | hne
      · rw [cpuId_setDev_self]
        rfl
      · rw [cpuId_setDev_of_ne _ hne]
  | cpuReturn i hline hphase hdone =>
      refine hsame rfl (h.cpuDevice (by rw [Cpu.current, Cpu.current, hline]) fun _ => ?_)
      simp [begun, hline, Timer.TimerId.wake]
  | cpuDetach i hline hphase =>
      refine hsame rfl (h.cpuDevice (by rw [Cpu.current, Cpu.current, hline]) fun hcur => ?_)
      exact absurd (hlock.tied.leaving i (Or.inl hline)).2 hcur
  | ld w hslot hdetach hstart hw =>
      obtain ⟨hcpu, -, hpc, -⟩ := (ldStep_lines hw).frame
      exact hsame hpc (h.congr hcpu (fun _ => rfl) le_rfl)
  | ldAnnounce hline hphase => exact hsame rfl (h.congr rfl (fun j => by simp) le_rfl)
  | ldReturn hline hphase hdone => exact hsame rfl (h.congr rfl (fun j => by simp) le_rfl)
  | ldAgain hline hphase hdone => exact hsame rfl (h.congr rfl (fun j => by simp) le_rfl)
  | ldDetach hline hphase => exact hsame rfl (h.congr rfl (fun j => by simp) le_rfl)
  | main t ht =>
      have hmain := mainFrame ht
      exact hsame (by rw [hmain.os])
        (h.congr (by rw [hmain.os]) (fun j => by rw [hmain.cpuId]) hmain.time.ge)

/-- **A process executes at most one instruction in a slot**: between any two moments of any run
at most as many as there are slots from the first to the last, both included. -/
theorem one_instruction_per_slot {s t : Simulator μ cfg.numCpus}
    {ls : List (SimLabel cfg.numCpus)} (h : (simulator cfg).Reachable s)
    (hrun : (simulator cfg).run s ls = some t) (p : ℕ) :
    t.os.pc p + s.timer.time ≤ s.os.pc p + (t.timer.time + 1) := by
  obtain ⟨σ, hat⟩ := exists_at s p
  have hinv : (simulator cfg).Reachable t ∧
      ∃ σ', At t p σ' ∧ t.os.pc p + σ ≤ s.os.pc p + σ' := by
    refine (simulator cfg).run_invariant (P := fun u => (simulator cfg).Reachable u ∧
      ∃ σ', At u p σ' ∧ u.os.pc p + σ ≤ s.os.pc p + σ') ?_ hrun ⟨h, σ, hat, le_rfl⟩
    rintro u l v ⟨hu, σ', hat', hle⟩ hstep
    obtain ⟨σ'', hat'', hle'⟩ := hat'.step (reachable_locked hu) hstep
    exact ⟨hu.step hstep, σ'', hat'', by omega⟩
  obtain ⟨ht, σ', hat', hle⟩ := hinv
  have hfirst := ((reachable_locked h).at_bounds hat).1
  have hlast := ((reachable_locked ht).at_bounds hat').2
  omega

theorem one_instruction_per_slot_oneCalc :
    ∃ s, (simulator (oneCalc 1)).run (Simulator.init 1 ()) oneCpuRun = some s ∧
      s.os.pc 0 = 1 ∧ s.os.pc 0 + 0 ≤ 0 + (s.timer.time + 1) := by
  have hrun : (((simulator (oneCalc 1)).run (Simulator.init 1 ()) oneCpuRun).any fun s =>
      s.os.pc 0 = 1) = true := by decide +kernel
  obtain ⟨s, hs, hpc⟩ := (Option.any_eq_true _ _).mp hrun
  exact ⟨s, hs, of_decide_eq_true hpc, one_instruction_per_slot (.of_init ⟨(), rfl⟩) hs 0⟩

/-! ## Finishing -/

/-- A step adds at most one process, and executes only what was added. -/
theorem simStep_ld {s t : Simulator μ n} {l : SimLabel n} (hlock : Locked cfg s)
    (hstep : simStep cfg s l = some t) :
    (t.os.ld.i = s.os.ld.i ∨ s.os.ld.line = .addReady ∧ t.os.ld.i = s.os.ld.i + 1 ∧
      t.os.cpu = s.os.cpu ∧ t.timer = s.timer) ∧
    ∀ p, s.os.ld.i ≤ p → t.os.pc p = s.os.pc p := by
  cases simStep_cases hstep with
  | cpu i w hslot hdetach hw =>
      refine ⟨Or.inl (congrArg Loader.i (cpuStep_cases hw).ld.1), fun p hp => ?_⟩
      refine (cpuStep_cases hw).pc_of_ne fun hcur => ?_
      exact absurd (hlock.sound.owned_lt p (mem_owned_of_current hcur)) (Nat.not_lt_of_le hp)
  | ld w hslot hdetach hstart hw =>
      have hld := ldStep_lines hw
      obtain ⟨hcpu, -, hpc, -⟩ := hld.frame
      refine ⟨?_, fun p _ => congrFun hpc p⟩
      cases hline : s.os.ld.line <;> rw [hline] at hld
      case addReady =>
        cases hld
        exact Or.inr ⟨rfl, rfl, rfl, rfl⟩
      case head => cases hld <;> exact Or.inl rfl
      all_goals
        cases hld
        try exact Or.inl rfl
  | main _ ht => exact ⟨Or.inl (by rw [(mainThread_frame ht).1]),
      fun p _ => by rw [(mainThread_frame ht).1]⟩
  | _ => exact ⟨Or.inl rfl, fun _ _ => rfl⟩

/-- A process has executed no more instructions than there were slots for it since it was
loaded. -/
structure Paced (cfg : Setup μ) (s : Simulator μ n) : Prop where
  loaded : ∀ p, p < s.os.ld.i → ∃ σ, At s p σ ∧ s.os.pc p + loadSlot cfg.startTime p ≤ σ
  later : ∀ p, s.os.ld.i ≤ p → s.os.pc p = 0

/-- **One step** keeps processes in pace. -/
theorem Paced.step {s t : Simulator μ n} {l : SimLabel n} (h : Paced cfg s)
    (hlock : Locked cfg s) (hpun : Punctual cfg s) (hstep : simStep cfg s l = some t) :
    Paced cfg t := by
  obtain ⟨hi, hpc⟩ := simStep_ld hlock hstep
  have hle : s.os.ld.i ≤ t.os.ld.i := by
    rcases hi with hi | ⟨-, hi, -⟩ <;> omega
  constructor
  · intro p hp
    by_cases hold : p < s.os.ld.i
    · obtain ⟨σ, hat, hσ⟩ := h.loaded p hold
      obtain ⟨σ', hat', hσ'⟩ := hat.step hlock hstep
      exact ⟨σ', hat', by omega⟩
    · -- The process was just added: it has executed nothing and nobody holds it.
      rcases hi with hi | ⟨hline, hi, hcpu, htimer⟩
      · omega
      · obtain rfl : p = s.os.ld.i := by omega
        have hnow := (hlock.ld_working (by simp [hline]) (by simp [hline]) (by simp [hline])).2
        have hload : s.ldId.returned = loadSlot cfg.startTime s.os.ld.i := by
          rw [Punctual] at hpun
          simp only [hline] at hpun
          exact hpun.1
        refine ⟨t.timer.time, Or.inr ⟨?_, rfl⟩, ?_⟩
        · intro i hcur
          rw [hcpu] at hcur
          exact absurd (hlock.sound.owned_lt _ (mem_owned_of_current hcur)) (lt_irrefl _)
        · rw [hpc _ le_rfl, h.later _ le_rfl, htimer, ← hnow, hload, Nat.zero_add]
  · intro p hp
    rw [hpc p (hle.trans hp)]
    exact h.later p (hle.trans hp)

theorem reachable_paced {s : Simulator μ cfg.numCpus} (h : (simulator cfg).Reachable s) :
    Paced cfg s := by
  refine h.invariant_of ?_ fun s _ _ hs hP hstep =>
    hP.step (reachable_locked hs) (reachable_punctual hs) hstep
  rintro s ⟨mem, rfl⟩
  exact ⟨fun p hp => absurd hp (Nat.not_lt_zero p), fun _ _ => rfl⟩

/-- **The earliest finish**: in every reachable state the instructions that a process has
executed fit, one in a slot, between its `loadSlot` and the current slot; so no process is
reported as finished before as many slots as it has instructions have passed since it was
loaded. -/
theorem earliest_finish {s : Simulator μ cfg.numCpus} (h : (simulator cfg).Reachable s) {p : ℕ}
    (hp : p < s.os.ld.i) :
    s.os.pc p + loadSlot cfg.startTime p ≤ s.timer.time + 1 ∧
      (p ∈ s.os.finished →
        (cfg.code p).length + loadSlot cfg.startTime p ≤ s.timer.time) := by
  have hlock := reachable_locked h
  obtain ⟨σ, hat, hσ⟩ := (reachable_paced h).loaded p hp
  refine ⟨hσ.trans (hlock.at_bounds hat).2, fun hfin => ?_⟩
  rcases hat with ⟨i, hi, -⟩ | ⟨-, rfl⟩
  · exact absurd (mem_owned_of_current hi) (hlock.sound.finished_not_owned p hfin)
  · rwa [hlock.sound.complete p hfin] at hσ

theorem earliest_finish_oneCalc :
    ∃ s, (simulator (oneCalc 1)).Reachable s ∧ 0 ∈ s.os.finished ∧
      s.os.pc 0 + loadSlot (fun _ => 0) 0 ≤ s.timer.time + 1 ∧
      (0 ∈ s.os.finished → 1 + loadSlot (fun _ => 0) 0 ≤ s.timer.time) := by
  have hrun : (((simulator (oneCalc 1)).run (Simulator.init 1 ()) oneCpuRun).any fun s =>
      0 < s.os.ld.i ∧ 0 ∈ s.os.finished) = true := by decide +kernel
  obtain ⟨s, hs, hfin⟩ := (Option.any_eq_true _ _).mp hrun
  have hreach : (simulator (oneCalc 1)).Reachable s := ⟨_, _, ⟨(), rfl⟩, hs⟩
  obtain ⟨hi, hfin⟩ := of_decide_eq_true hfin
  exact ⟨s, hreach, hfin, earliest_finish hreach hi⟩

/-! ## All CPUs together -/

/-- The instructions executed so far. -/
def World.work (cfg : Config μ) (w : World μ n) : ℕ :=
  ∑ p ∈ Finset.range cfg.ldProcesses.length, w.pc p

/-- The slots of all CPUs. -/
def Simulator.capacity (s : Simulator μ n) : ℕ := ∑ i, s.begun i

/-- What a CPU's step adds to the work. -/
theorem work_update {c : Config μ} {w v : World μ n} {p : ℕ}
    (hpc : v.pc = Function.update w.pc p (w.pc p + 1)) : v.work c ≤ w.work c + 1 := by
  rw [World.work, World.work, hpc]
  by_cases hp : p ∈ Finset.range c.ldProcesses.length
  · have hupdate := sum_update_add hp (fun k : ℕ => k) w.pc (w.pc p + 1)
    omega
  · refine (Finset.sum_congr rfl fun q hq => ?_).le.trans (Nat.le_succ _)
    refine Function.update_of_ne ?_ ..
    rintro rfl
    exact hp hq

theorem capacity_mono {s t : Simulator μ n} (h : ∀ i, s.begun i ≤ t.begun i) :
    s.capacity ≤ t.capacity := Finset.sum_le_sum fun i _ => h i

/-- A CPU that uses a slot. -/
theorem capacity_succ {s t : Simulator μ n} {i : Fin n}
    (hother : ∀ j, j ≠ i → t.begun j = s.begun j) (hi : t.begun i = s.begun i + 1) :
    t.capacity = s.capacity + 1 := by
  have hrest : ∑ j ∈ Finset.univ.erase i, t.begun j = ∑ j ∈ Finset.univ.erase i, s.begun j := by
    apply Finset.sum_congr rfl
    intro j hj
    exact hother j (Finset.ne_of_mem_erase hj)
  rw [capacity, capacity, ← Finset.add_sum_erase _ t.begun (Finset.mem_univ i),
    ← Finset.add_sum_erase _ s.begun (Finset.mem_univ i), hrest, hi]
  omega

theorem begun_congr {s t : Simulator μ n} {i : Fin n} (hcpu : t.os.cpu i = s.os.cpu i)
    (hret : (t.cpuId i).returned = (s.cpuId i).returned) : t.begun i = s.begun i := by
  rw [begun, begun, hcpu, hret]

theorem begun_le {s t : Simulator μ n} {i : Fin n} (hcpu : t.os.cpu i = s.os.cpu i)
    (hret : (t.cpuId i).returned = (s.cpuId i).returned) : s.begun i ≤ t.begun i :=
  (begun_congr hcpu hret).ge

/-- **One step** does at most as much work as it uses slots. -/
theorem work_step {s t : Simulator μ n} {l : SimLabel n}
    (hstep : simStep cfg s l = some t) :
    t.os.work cfg.toConfig + s.capacity ≤ s.os.work cfg.toConfig + t.capacity := by
  have hsame : t.os.pc = s.os.pc → (∀ i, s.begun i ≤ t.begun i) →
      t.os.work cfg.toConfig + s.capacity ≤ s.os.work cfg.toConfig + t.capacity := by
    intro hpc hle
    rw [World.work, World.work, hpc]
    exact Nat.add_le_add_left (capacity_mono hle) _
  cases simStep_cases hstep with
  | timer u hu => exact hsame rfl fun i => begun_le rfl (Timer.returned_timerRoutine hu _)
  | cpu i w hslot hdetach hw =>
      have hother : ∀ j, j ≠ i → (s.setOs w).begun j = s.begun j :=
        fun j hj => begun_congr ((cpuStep_cases hw).cpu_of_ne hj) rfl
      have hbegun : s.begun i = (s.cpuId i).returned := by rw [begun, if_neg hslot, Nat.add_zero]
      rcases cpuStep_pc hw with hpc | ⟨q, -, -, hpc, -, hline⟩
      · refine hsame hpc fun j => ?_
        rcases eq_or_ne j i with rfl | hj
        · rw [hbegun, begun, cpuId_setOs]
          exact Nat.le_add_right _ _
        · exact (hother j hj).ge
      · have hwork : w.work cfg.toConfig ≤ s.os.work cfg.toConfig + 1 := work_update hpc
        have hcap : (s.setOs w).capacity = s.capacity + 1 := by
          refine capacity_succ hother ?_
          rw [hbegun, begun, cpuId_setOs, os_setOs, if_pos hline]
        rw [os_setOs, hcap]
        omega
  | cpuAnnounce i hline hphase =>
      refine hsame rfl fun j => begun_le rfl ?_
      rcases eq_or_ne j i with rfl | hne
      · rw [cpuId_setDev_self]
        rfl
      · rw [cpuId_setDev_of_ne _ hne]
  | cpuReturn i hline hphase hdone =>
      refine hsame rfl fun j => ?_
      rcases eq_or_ne j i with rfl | hne
      · simp [begun, hline, Timer.TimerId.wake]
      · simp [begun, hne]
  | cpuDetach i hline hphase =>
      refine hsame rfl fun j => ?_
      rcases eq_or_ne j i with rfl | hne
      · simp [begun, hline, Timer.TimerId.detach]
      · simp [begun, hne]
  | ld w hslot hdetach hstart hw =>
      obtain ⟨hcpu, -, hpc, -⟩ := (ldStep_lines hw).frame
      exact hsame hpc fun j => begun_le (congrFun hcpu j) rfl
  | ldAnnounce hline hphase => exact hsame rfl fun j => begun_le rfl (by simp)
  | ldReturn hline hphase hdone => exact hsame rfl fun j => begun_le rfl (by simp)
  | ldAgain hline hphase hdone => exact hsame rfl fun j => begun_le rfl (by simp)
  | ldDetach hline hphase => exact hsame rfl fun j => begun_le rfl (by simp)
  | main t ht =>
      have hmain := mainFrame ht
      exact hsame (by rw [hmain.os]) fun j => begun_le (by rw [hmain.os]) (by rw [hmain.cpuId])

/-- **The throughput of all CPUs**: in every reachable state at most `num_cpus` instructions have
been executed for each slot, the current one included. -/
theorem throughput {s : Simulator μ cfg.numCpus} (h : (simulator cfg).Reachable s) :
    ∑ p ∈ Finset.range cfg.ldProcesses.length, s.os.pc p ≤
      cfg.numCpus * (s.timer.time + 1) := by
  have hwork : s.os.work cfg.toConfig ≤ s.capacity := by
    refine h.invariant_of (P := fun s => s.os.work cfg.toConfig ≤ s.capacity) ?_ ?_
    · rintro s ⟨mem, rfl⟩
      refine le_of_eq_of_le ?_ (Nat.zero_le _)
      exact Finset.sum_eq_zero fun p _ => rfl
    · intro s l t _ hle hstep
      have := work_step hstep
      omega
  have hslots : ∀ i ∈ (Finset.univ : Finset (Fin cfg.numCpus)), s.begun i ≤ s.timer.time + 1 := by
    intro i _
    have hret := Timer.reachable_returned_le (reachable_timer h) (cpuDev_lt i)
    rw [begun, cpuId]
    split <;> omega
  calc ∑ p ∈ Finset.range cfg.ldProcesses.length, s.os.pc p ≤ s.capacity := hwork
    _ ≤ ∑ _i : Fin cfg.numCpus, (s.timer.time + 1) := Finset.sum_le_sum hslots
    _ = cfg.numCpus * (s.timer.time + 1) := by simp

theorem throughput_oneCalc :
    ∃ s, (simulator (oneCalc 1)).Reachable s ∧ s.timer.time = 3 ∧
      ∑ p ∈ Finset.range 1, s.os.pc p ≤ 1 * (s.timer.time + 1) := by
  have hrun : (((simulator (oneCalc 1)).run (Simulator.init 1 ()) oneCpuRun).any fun s =>
      s.timer.time = 3) = true := by decide +kernel
  obtain ⟨s, hs, htime⟩ := (Option.any_eq_true _ _).mp hrun
  have hreach : (simulator (oneCalc 1)).Reachable s := ⟨_, _, ⟨(), rfl⟩, hs⟩
  exact ⟨s, hreach, of_decide_eq_true htime, throughput hreach⟩

end SimOs.Os
