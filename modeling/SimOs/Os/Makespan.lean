import SimOs.Os.Completion
import SimOs.Os.Progress

/-!
# When everything is finished

Once all processes are loaded no slot is wasted: as long as a process is not finished, some
CPU calls `run` in every slot.  In the middle of a slot this takes the form of an
invariant.  Either the slots so far have all been used, the current one included, or the
current one is still open and some CPU will use it: it holds a process, or it is about to
ask for one while one is ready.  At the tick no CPU is about to do anything, so the
first of the two holds.

## Main definitions

* `Active`, `Fetching`, `Pending`: the current slot will be used.
* `OnSchedule`: the invariant.
* `makespan`: the slot by which everything is finished.
-/

namespace SimOs.Os

open SimOs.Sched World Simulator

universe u
variable {μ : Type u} {cfg : Setup μ} {n : ℕ}

/-- CPU `i` holds process `p` and has not run it in the current slot. -/
def Active (s : Simulator μ n) (i : Fin n) (p : ℕ) : Prop :=
  (s.os.cpu i).proc = some p ∧
    ((s.os.cpu i).line = .head ∨ (s.os.cpu i).line.Holding ∨ s.Late i)

/-- CPU `i` will ask for a process in the current slot. -/
def Fetching (s : Simulator μ n) (i : Fin n) : Prop :=
  (s.os.cpu i).proc = none ∧ ((s.os.cpu i).line = .head ∨ s.Late i) ∨
    (s.os.cpu i).line = .load ∨ (s.os.cpu i).line = .reload

/-- A CPU will use the current slot. -/
def Pending (s : Simulator μ n) : Prop :=
  (∃ i p, Active s i p) ∨ s.os.sched.ready ≠ 0 ∧ ∃ i, Fetching s i

/-- A CPU has used the current slot. -/
def Served (s : Simulator μ n) : Prop :=
  ∃ i, (s.os.cpu i).line = .slot ∧ (s.os.cpu i).proc ≠ none ∧ ¬ s.Late i

/-- Every process of the configuration was reported as finished. -/
def AllFinished (cfg : Config μ) (w : World μ n) : Prop :=
  ∀ p, p < cfg.ldProcesses.length → p ∈ w.finished

/-- The slots until now, the current one included, were used, but for those it took to load
the processes. -/
def Met (cfg : Setup μ) (s : Simulator μ n) : Prop :=
  s.timer.time ≤ loopSlot cfg.startTime cfg.ldProcesses.length + s.os.totalUsed cfg.toConfig

/-- The slots before the current one were used, which is still open. -/
structure Behind (cfg : Setup μ) (s : Simulator μ n) : Prop where
  time_le : s.timer.time ≤
    loopSlot cfg.startTime cfg.ldProcesses.length + s.os.totalUsed cfg.toConfig + 1
  pending : Pending s
  not_served : ¬ Served s

/-- No slot was wasted. -/
def OnSchedule (cfg : Setup μ) (s : Simulator μ n) : Prop :=
  AllFinished cfg.toConfig s.os ∨ Met cfg s ∨ Behind cfg s

/-! ## Before the loader is done -/

/-- Until `done` is set the loader has used every slot. -/
theorem Punctual.time_le_loopSlot {s : Simulator μ n} (h : Punctual cfg s)
    (hlock : Locked cfg s) (hnot : s.os.done = false) :
    s.timer.time ≤ loopSlot cfg.startTime cfg.ldProcesses.length := by
  by_cases hlt : s.os.ld.i < cfg.ldProcesses.length
  · exact (h.time_le hlock hnot).trans (loadSlot_lt_loopSlot hlt).le
  · have hdone : s.os.done ≠ true := by simp [hnot]
    rw [Punctual] at h
    cases hline : s.os.ld.line <;> simp only [hline] at h
    case head =>
      have hnow := (hlock.ld_working (by simp [hline]) (by simp [hline]) (by simp [hline])).2
      have hi : s.os.ld.i = cfg.ldProcesses.length := by omega
      exact hi ▸ hnow.ge.trans h.1.le
    case slot =>
      have hi : s.os.ld.i = cfg.ldProcesses.length := by omega
      rw [← hi]
      rcases hlock.ld_slot (by simp [hline]) with hnow | ⟨-, hlate⟩ <;> omega
    case wait | addRunning | addReady => exact absurd h.2 hlt
    case detach => exact absurd h.2.2 hdone
    case exited => exact absurd h.2.2 hdone

theorem met_of_not_done {s : Simulator μ n} (hpun : Punctual cfg s) (hlock : Locked cfg s)
    (hnot : s.os.done = false) : Met cfg s :=
  (hpun.time_le_loopSlot hlock hnot).trans (Nat.le_add_right _ _)

/-- After the first tick every CPU has called `get_proc`. -/
theorem started_of_time {s : Simulator μ cfg.numCpus} (hn : 0 < cfg.numCpus)
    (hroom : cfg.Roomy) (h : (simulator cfg).Reachable s) :
    s.timer.time = 0 ∨ s.os.sched.Started := by
  refine h.invariant_of (P := fun s => s.timer.time = 0 ∨ s.os.sched.Started) ?_ ?_
  · rintro s ⟨mem, rfl⟩
    exact Or.inl rfl
  · intro s l t hs hP hstep
    have hlock := reachable_locked hs
    have hstock := reachable_stocked hroom (reachable_os hs)
    by_cases hstarted : s.os.sched.Started
    · right
      rcases simStep_os hstep with hos | ⟨l', hl'⟩
      · rwa [hos]
      · exact started_step hlock.sound.counters hstarted hl'
    · left
      have hidle := hstock.begun.resolve_left hstarted
      have hzero := hP.resolve_right hstarted
      cases simStep_cases hstep with
      | timer u hu =>
          rcases Timer.time_timerRoutine hu with htime | ⟨-, -, fsh, event, hpc⟩
          · exact htime.trans hzero
          · -- At the tick CPU 0 is in `next_slot` or has exited.
            have hline := (hidle ⟨0, hn⟩).2
            rcases hlock.timer.through hpc (cpuDev_lt ⟨0, hn⟩) with hdet | ⟨hwait, -⟩
            · rw [(hlock.tied.detached ⟨0, hn⟩).mp hdet] at hline
              simp at hline
            · rw [hlock.tied.waiting ⟨0, hn⟩ hwait] at hline
              simp at hline
      | main _ ht => rw [(mainFrame ht).time, hzero]
      | _ => exact hzero

/-! ## The tick -/

/-- At the tick every CPU has exited or is through with its slot. -/
theorem Locked.through {s : Simulator μ n} (h : Locked cfg s) {fsh event : ℕ}
    (hpc : s.timer.pc = .tick fsh event) (i : Fin n) : (s.os.cpu i).line = .exited ∨
      (s.os.cpu i).line = .slot ∧ (s.cpuId i).returned = s.timer.time := by
  rcases h.timer.through hpc (cpuDev_lt i) with hdet | ⟨hwait, hnow⟩
  · exact Or.inl ((h.tied.detached i).mp hdet)
  · exact Or.inr ⟨h.tied.waiting i hwait, hnow⟩

/-- At the tick no CPU is about to use the slot. -/
theorem Locked.not_pending {s : Simulator μ n} (h : Locked cfg s) {fsh event : ℕ}
    (hpc : s.timer.pc = .tick fsh event) : ¬ Pending s := by
  have hlate : ∀ i, ¬ s.Late i := by
    intro i hlate
    rcases h.through hpc i with hline | ⟨-, hnow⟩
    · exact absurd (hlate.1.symm.trans hline) (by simp)
    · exact absurd hnow hlate.2.ne
  rintro (⟨i, p, -, hline⟩ | ⟨-, i, hfetch⟩)
  · rcases hline with hline | hline | hline
    · rcases h.through hpc i with hl | ⟨hl, -⟩ <;> cases hl.symm.trans hline
    · rcases h.through hpc i with hl | ⟨hl, -⟩ <;> rw [hl] at hline <;>
        simp [CpuLine.Holding] at hline
    · exact hlate i hline
  · rcases hfetch with ⟨-, hline | hline⟩ | hline | hline
    · rcases h.through hpc i with hl | ⟨hl, -⟩ <;> cases hl.symm.trans hline
    · exact hlate i hline
    · rcases h.through hpc i with hl | ⟨hl, -⟩ <;> cases hl.symm.trans hline
    · rcases h.through hpc i with hl | ⟨hl, -⟩ <;> cases hl.symm.trans hline

/-- **The next slot** will be used as well, if a process is not finished. -/
theorem Met.tick {s : Simulator μ n} (h : Met cfg s) (hlock : Locked cfg s)
    (hpun : Punctual cfg s) (hstock : Stocked cfg.toConfig s.os) (hdrain : Drained s)
    (hdone : s.os.done = true) {fsh event : ℕ} (hpc : s.timer.pc = .tick fsh event)
    {u : Timer.State} (hdev : u.dev = s.timer.dev) (htime : u.time = s.timer.time + 1) :
    AllFinished cfg.toConfig s.os ∨ Behind cfg (s.setTimer u) := by
  by_cases hall : AllFinished cfg.toConfig s.os
  · exact Or.inl hall
  right
  have hret : ∀ i, ((s.setTimer u).cpuId i).returned = (s.cpuId i).returned := by
    intro i
    rw [cpuId, timer_setTimer, hdev, cpuId]
  -- A CPU that has not exited is late now.
  have hlate : ∀ i, (s.os.cpu i).line ≠ .exited → (s.setTimer u).Late i := by
    intro i hexited
    obtain ⟨hline, hnow⟩ := (hlock.through hpc i).resolve_left hexited
    refine ⟨hline, ?_⟩
    rw [hret, hnow, timer_setTimer, htime]
    exact Nat.lt_succ_self _
  refine ⟨?_, ?_, ?_⟩
  · rw [timer_setTimer, htime]
    exact Nat.succ_le_succ h
  · simp only [AllFinished, not_forall] at hall
    obtain ⟨p, hp, hnot⟩ := hall
    have hi := (hpun.of_done hlock hdone).1
    have howned := (hstock.kept p (hi ▸ hp)).resolve_right hnot
    rcases Multiset.mem_add.mp howned with hready | hcur
    · -- The process is ready: a CPU that is not gone will ask for it.
      have hne : s.os.sched.ready ≠ 0 := fun hzero => by simp [hzero] at hready
      have hsome : ∃ i, ¬ Gone (s.os.cpu i) := by
        by_contra hgone
        rcases hdrain (fun i => not_not.mp fun hi => hgone ⟨i, hi⟩) with hzero | ⟨hline, -⟩
        · exact hne hzero
        · rcases hlock.retired hdone with hl | hl <;> cases hl.symm.trans hline
      obtain ⟨i, hi⟩ := hsome
      have hl := hlate i fun hline => hi (Or.inr (Or.inr hline))
      cases hproc : (s.os.cpu i).proc with
      | none => exact Or.inr ⟨hne, i, Or.inl ⟨hproc, Or.inr hl⟩⟩
      | some q => exact Or.inl ⟨i, q, hproc, Or.inr (Or.inr hl)⟩
    · obtain ⟨i, -, hmem⟩ := Multiset.mem_sum.mp hcur
      have hcur' : (s.os.cpu i).current = some p := by simpa using hmem
      have hexited := hlock.line_ne_exited hcur'
      have hline := ((hlock.through hpc i).resolve_left hexited).1
      rw [Cpu.current, hline] at hcur'
      exact Or.inl ⟨i, p, hcur', Or.inr (Or.inr (hlate i hexited))⟩
  · rintro ⟨i, hline, -, hnot⟩
    refine hnot (hlate i ?_)
    rw [os_setTimer] at hline
    simp [hline]

/-! ## Within a slot -/

/-- What is pending stays so if no CPU does anything else. -/
theorem Pending.mono {s t : Simulator μ n} (h : Pending s)
    (hactive : ∀ i p, Active s i p → Active t i p) (hfetch : ∀ i, Fetching s i → Fetching t i)
    (hready : s.os.sched.ready ≠ 0 → t.os.sched.ready ≠ 0) : Pending t := by
  rcases h with ⟨i, p, hi⟩ | ⟨hne, i, hi⟩
  · exact Or.inl ⟨i, p, hactive i p hi⟩
  · exact Or.inr ⟨hready hne, i, hfetch i hi⟩

/-- What is pending stays so if a CPU without anything to do moves on. -/
theorem Pending.frame {s t : Simulator μ n} {i : Fin n} (h : Pending s)
    (hcpu : ∀ j, j ≠ i → t.os.cpu j = s.os.cpu j) (hlate : ∀ j, j ≠ i → s.Late j → t.Late j)
    (hactive : ∀ p, ¬ Active s i p) (hfetch : ¬ Fetching s i)
    (hready : t.os.sched = s.os.sched) : Pending t := by
  rcases h with ⟨j, p, hj⟩ | ⟨hne, j, hj⟩
  · have hji : j ≠ i := by
      rintro rfl
      exact hactive p hj
    refine Or.inl ⟨j, p, ?_⟩
    rw [Active, hcpu j hji]
    exact ⟨hj.1, hj.2.imp id (Or.imp id (hlate j hji))⟩
  · have hji : j ≠ i := by
      rintro rfl
      exact hfetch hj
    refine Or.inr ⟨hready ▸ hne, j, ?_⟩
    rw [Fetching, hcpu j hji]
    exact hj.imp (And.imp id (Or.imp id (hlate j hji))) id

/-- A CPU comes to `next_slot` with a process only from `run`. -/
theorem cpuStep_served {c : Config μ} {w v : World μ n} {i : Fin n}
    (h : cpuStep c w i = some v) (hline : (v.cpu i).line = .slot)
    (hproc : (v.cpu i).proc ≠ none) : (w.cpu i).line = .run := by
  have hlines := cpuStep_lines h
  rcases hcpu : w.cpu i with ⟨line, proc, t⟩
  rw [hcpu] at hlines
  cases hlines with
  | load =>
      rw [cpu_setCpu_self] at hline hproc
      cases hr : (getProc c.prio w.sched).1 <;> simp [hr] at hline hproc
  | checkEmpty =>
      rw [cpu_setCpu_self] at hproc
      exact absurd rfl hproc
  | run => rfl
  | _ =>
      rw [cpu_setCpu_self] at hline
      simp at hline

/-- If nothing is ready an unfinished process is on a CPU that will run it. -/
theorem pending_of_not_ready {s : Simulator μ n} (hlock : Locked cfg s)
    (hpun : Punctual cfg s) (hstock : Stocked cfg.toConfig s.os) (hdone : s.os.done = true)
    (hserved : ¬ Served s) (hall : ¬ AllFinished cfg.toConfig s.os)
    (hready : s.os.sched.ready = 0) : Pending s := by
  simp only [AllFinished, not_forall] at hall
  obtain ⟨p, hp, hnot⟩ := hall
  have hi := (hpun.of_done hlock hdone).1
  have howned := (hstock.kept p (hi ▸ hp)).resolve_right hnot
  rw [World.owned, hready, zero_add] at howned
  obtain ⟨i, -, hmem⟩ := Multiset.mem_sum.mp howned
  have hcur : (s.os.cpu i).current = some p := by simpa using hmem
  refine Or.inl ⟨i, p, ?_⟩
  have hexited := hlock.line_ne_exited hcur
  rcases hcpu : s.os.cpu i with ⟨line, proc, t⟩
  rw [hcpu] at hcur hexited
  rw [Active, hcpu]
  cases line with
  | load => cases hcur
  | reload => cases hcur
  | head => exact ⟨hcur, Or.inl rfl⟩
  | putRunning => exact ⟨hcur, Or.inr (Or.inl (Or.inl rfl))⟩
  | putReady => exact ⟨hcur, Or.inr (Or.inl (Or.inr (Or.inl rfl)))⟩
  | check => exact ⟨hcur, Or.inr (Or.inl (Or.inr (Or.inr (Or.inl rfl))))⟩
  | run => exact ⟨hcur, Or.inr (Or.inl (Or.inr (Or.inr (Or.inr rfl))))⟩
  | slot =>
      refine ⟨hcur, Or.inr (Or.inr ?_)⟩
      by_contra hlate
      refine hserved ⟨i, by rw [hcpu], ?_, hlate⟩
      rw [hcpu, show proc = some p from hcur]
      simp
  | detach =>
      have hproc := (hlock.tied.leaving i (Or.inl (by rw [hcpu]))).2
      rw [hcpu] at hproc
      cases hproc.symm.trans hcur
  | exited => exact absurd rfl hexited

/-- A CPU that has not called `run` leaves somebody who will use the slot, if a process is ready. -/
theorem Pending.cpu {s : Simulator μ n} (h : Pending s) (hlock : Locked cfg s)
    (hroom : cfg.Roomy) (hstock : Stocked cfg.toConfig s.os)
    (hstarted : s.os.sched.Started) {i : Fin n} {w : World μ n}
    (hslot : (s.os.cpu i).line ≠ .slot) (hdetach : (s.os.cpu i).line ≠ .detach)
    (hrun : (s.os.cpu i).line ≠ .run) (hw : cpuStep cfg.toConfig s.os i = some w)
    (hready : w.sched.ready ≠ 0) : Pending (s.setOs w) := by
  have hlines := cpuStep_lines hw
  -- `NULL` would mean that nothing is ready.
  have hgot : (getProc cfg.prio s.os.sched).2.ready ≠ 0 →
      (getProc cfg.prio s.os.sched).1 ≠ none := by
    intro hne hnone
    rw [ready_getProc_none hlock.sound.counters hnone] at hne
    exact hne (hstock.ready_of_none hroom hlock.sound hstarted hnone)
  have hactive : ∀ {c : Cpu} {v : World μ n} {p : ℕ}, c.proc = some p →
      (c.line = .head ∨ c.line.Holding) → Pending (s.setOs (v.setCpu i c)) := by
    intro c v p hp hline
    refine Or.inl ⟨i, p, ?_⟩
    rw [Active, os_setOs, cpu_setCpu_self]
    exact ⟨hp, hline.imp id Or.inl⟩
  have hfetch : ∀ {c : Cpu} {v : World μ n}, v.sched.ready ≠ 0 →
      (c.line = .load ∨ c.line = .reload) → Pending (s.setOs (v.setCpu i c)) := by
    intro c v hne hline
    refine Or.inr ⟨hne, i, Or.inr ?_⟩
    rw [os_setOs, cpu_setCpu_self]
    exact hline
  rcases hcpu : s.os.cpu i with ⟨line, proc, t⟩
  rw [hcpu] at hlines hslot hdetach hrun
  cases hlines with
  | headEmpty => exact hfetch hready (Or.inl rfl)
  | headFinished => exact hfetch hready (Or.inr rfl)
  | headOver p => exact hactive rfl (Or.inr (Or.inl rfl))
  | headOn p => exact hactive rfl (Or.inr (Or.inr (Or.inr (Or.inl rfl))))
  | load =>
      obtain ⟨p, hp⟩ := Option.ne_none_iff_exists'.mp (hgot hready)
      exact hactive hp (Or.inr (Or.inr (Or.inr (Or.inl (by rw [hp]; rfl)))))
  | putRunning p => exact hactive rfl (Or.inr (Or.inr (Or.inl rfl)))
  | putReady p => exact hfetch hready (Or.inr rfl)
  | reload =>
      obtain ⟨p, hp⟩ := Option.ne_none_iff_exists'.mp (hgot hready)
      exact hactive hp (Or.inr (Or.inr (Or.inr (Or.inl rfl))))
  | checkEmpty =>
      refine h.frame (i := i) (fun j hj => cpu_setCpu_of_ne _ hj _) ?_ ?_ ?_ rfl
      · intro j hj hlate
        rw [Late, os_setOs, cpu_setCpu_of_ne _ hj]
        exact hlate
      · rintro p ⟨hp, -⟩
        rw [hcpu] at hp
        cases hp
      · rw [Fetching, Late, hcpu]
        simp
  | check p => exact hactive rfl (Or.inr (Or.inr (Or.inr (Or.inr rfl))))
  | run => exact absurd rfl hrun
  | slot => exact absurd rfl hslot
  | detach => exact absurd rfl hdetach

/-- **A CPU moves on in a slot that is still open.** -/
theorem Behind.cpu {s : Simulator μ n} (h : Behind cfg s) (hlock : Locked cfg s)
    (hroom : cfg.Roomy) (hstock : Stocked cfg.toConfig s.os)
    (hunspent : Unspent cfg.toConfig s.os) (hstarted : s.os.sched.Started)
    {i : Fin n} {w : World μ n} (hslot : (s.os.cpu i).line ≠ .slot)
    (hdetach : (s.os.cpu i).line ≠ .detach) (hw : cpuStep cfg.toConfig s.os i = some w)
    (hlock' : Locked cfg (s.setOs w)) (hpun' : Punctual cfg (s.setOs w))
    (hstock' : Stocked cfg.toConfig w) (hdone : w.done = true) : OnSchedule cfg (s.setOs w) := by
  have hle := h.time_le
  by_cases hrun : (s.os.cpu i).line = .run
  · have hcount := totalUsed_run hlock.sound hunspent hstock.le_length hrun hw
    refine Or.inr (Or.inl ?_)
    rw [Met, timer_setOs, os_setOs]
    omega
  · have hmono := totalUsed_cpu hlock.sound hw
    have hserved : ¬ Served (s.setOs w) := by
      rintro ⟨j, hline, hproc, hlate⟩
      rcases eq_or_ne j i with rfl | hne
      · exact hrun (cpuStep_served hw hline hproc)
      · rw [Late, os_setOs, cpuId_setOs, timer_setOs] at hlate
        rw [os_setOs] at hline hproc
        rw [(cpuStep_cases hw).cpu_of_ne hne] at hline hproc hlate
        exact h.not_served ⟨j, hline, hproc, hlate⟩
    by_cases hall : AllFinished cfg.toConfig w
    · exact Or.inl hall
    · refine Or.inr (Or.inr ⟨?_, ?_, hserved⟩)
      · rw [timer_setOs, os_setOs]
        omega
      · by_cases hready : w.sched.ready = 0
        · exact pending_of_not_ready hlock' hpun' hstock' hdone hserved hall hready
        · exact h.pending.cpu hlock hroom hstock hstarted hslot hdetach hrun hw hready

/-- Steps that change no CPU, nothing that is ready, and no slot. -/
theorem Behind.congr {s t : Simulator μ n} (h : Behind cfg s) (hcpu : t.os.cpu = s.os.cpu)
    (hsched : t.os.sched = s.os.sched)
    (hused : t.os.totalUsed cfg.toConfig = s.os.totalUsed cfg.toConfig)
    (hret : ∀ i, (t.cpuId i).returned = (s.cpuId i).returned)
    (htime : t.timer.time = s.timer.time) : Behind cfg t := by
  have hlate : ∀ i, t.Late i ↔ s.Late i := by
    intro i
    rw [Late, Late, hcpu, hret, htime]
  refine ⟨by rw [htime, hused]; exact h.time_le, ?_, ?_⟩
  · refine h.pending.mono ?_ ?_ (by rw [hsched]; exact id)
    · intro i p hi
      rw [Active, hcpu, hlate]
      exact hi
    · intro i hi
      rw [Fetching, hcpu, hlate]
      exact hi
  · rintro ⟨i, hline, hproc, hnot⟩
    rw [hcpu] at hline hproc
    exact h.not_served ⟨i, hline, hproc, fun hl => hnot ((hlate i).mpr hl)⟩

/-- A CPU returns into the slot, or leaves. -/
theorem Behind.cpuDevice {s : Simulator μ n} (h : Behind cfg s) {i : Fin n} {line : CpuLine}
    {d : Timer.TimerId} (hslot : line ≠ .slot)
    (hpending : Pending s → Pending
      ((s.setOs (s.os.setCpu i { s.os.cpu i with line := line })).setDev (cpuDev i) d))
    (hused : s.os.totalUsed cfg.toConfig ≤
      (s.os.setCpu i { s.os.cpu i with line := line }).totalUsed cfg.toConfig) :
    Behind cfg
      ((s.setOs (s.os.setCpu i { s.os.cpu i with line := line })).setDev (cpuDev i) d) := by
  refine ⟨?_, hpending h.pending, ?_⟩
  · exact h.time_le.trans (Nat.succ_le_succ (Nat.add_le_add_left hused _))
  · rintro ⟨j, hline, hproc, hlate⟩
    rcases eq_or_ne j i with rfl | hne
    · rw [os_setDev, os_setOs, cpu_setCpu_self] at hline
      exact hslot hline
    · rw [Late, cpuId_setDev_of_ne _ hne, os_setDev, os_setOs, cpu_setCpu_of_ne _ hne,
        cpuId_setOs, time_setDev, timer_setOs] at hlate
      rw [os_setDev, os_setOs, cpu_setCpu_of_ne _ hne] at hline hproc
      exact h.not_served ⟨j, hline, hproc, hlate⟩

/-! ## The invariant -/

/-- A step takes back neither a report nor a use. -/
theorem osStep_mono {c : Config μ} {w v : World μ n} {l : Label n} (hw : Sound c w)
    (h : osStep c w l = some v) :
    (∀ p ∈ w.finished, p ∈ v.finished) ∧ w.totalUsed c ≤ v.totalUsed c := by
  cases l with
  | cpu i =>
      refine ⟨fun p hp => ?_, totalUsed_cpu hw h⟩
      rcases (cpuStep_cases h).finished with heq | ⟨q, heq, -⟩
      · exact heq ▸ hp
      · exact heq ▸ List.mem_append_left _ hp
  | loader =>
      obtain ⟨hcpu, -, hpc, hfin⟩ := (ldStep_lines h).frame
      exact ⟨fun p hp => hfin ▸ hp, (totalUsed_congr hpc hcpu hfin).ge⟩
  | loaderWait =>
      rw [osStep_loaderWait h]
      exact ⟨fun _ hp => hp, le_rfl⟩

/-- Only the tick moves `_time`. -/
theorem simStep_time {s t : Simulator μ n} {l : SimLabel n} (hstep : simStep cfg s l = some t) :
    t.timer.time = s.timer.time ∨ ∃ u fsh event, t = s.setTimer u ∧
      s.timer.pc = .tick fsh event ∧ u.time = s.timer.time + 1 ∧ u.dev = s.timer.dev := by
  cases simStep_cases hstep with
  | timer u hu =>
      rcases Timer.time_timerRoutine hu with htime | ⟨htime, hdev, fsh, event, hpc⟩
      · exact Or.inl htime
      · exact Or.inr ⟨u, fsh, event, rfl, hpc, htime, hdev⟩
  | main _ ht => exact Or.inl (mainFrame ht).time
  | _ => exact Or.inl rfl

/-- What is known of the states of a roomy configuration. -/
structure Supplied (cfg : Setup μ) (s : Simulator μ n) : Prop where
  locked : Locked cfg s
  punctual : Punctual cfg s
  stocked : Stocked cfg.toConfig s.os
  unspent : Unspent cfg.toConfig s.os
  drained : Drained s
  started : s.timer.time = 0 ∨ s.os.sched.Started

theorem reachable_supplied (hn : 0 < cfg.numCpus) (hroom : cfg.Roomy)
    {s : Simulator μ cfg.numCpus} (h : (simulator cfg).Reachable s) : Supplied cfg s where
  locked := reachable_locked h
  punctual := reachable_punctual h
  stocked := reachable_stocked hroom (reachable_os h)
  unspent := reachable_unspent (reachable_os h)
  drained := reachable_drained hn hroom h
  started := started_of_time hn hroom h

/-- If the slots so far were used, the next step leaves the program on schedule. -/
theorem Met.step {s t : Simulator μ cfg.numCpus} {l : SimLabel cfg.numCpus} (h : Met cfg s)
    (hs : Supplied cfg s) (ht : Supplied cfg t) (hstep : simStep cfg s l = some t) :
    OnSchedule cfg t := by
  cases hdone : t.os.done with
  | false => exact Or.inr (Or.inl (met_of_not_done ht.punctual ht.locked hdone))
  | true =>
      rcases simStep_time hstep with htime | ⟨u, fsh, event, rfl, hpc, htime, hdev⟩
      · have hmono : s.os.totalUsed cfg.toConfig ≤ t.os.totalUsed cfg.toConfig := by
          rcases simStep_os hstep with hos | ⟨l', hl'⟩
          · rw [hos]
          · exact (osStep_mono hs.locked.sound hl').2
        refine Or.inr (Or.inl ?_)
        rw [Met, htime]
        exact h.trans (Nat.add_le_add_left hmono _)
      · exact (h.tick hs.locked hs.punctual hs.stocked hs.drained hdone hpc hdev htime).imp id
          Or.inr

/-- In a slot that is still open, the next step leaves the program on schedule. -/
theorem Behind.step {s t : Simulator μ cfg.numCpus} {l : SimLabel cfg.numCpus}
    (h : Behind cfg s) (hroom : cfg.Roomy) (hs : Supplied cfg s) (ht : Supplied cfg t)
    (hnot : ¬ Met cfg s) (hstep : simStep cfg s l = some t) : OnSchedule cfg t := by
  have hdone : s.os.done = true := by
    by_contra hno
    exact hnot (met_of_not_done hs.punctual hs.locked (by simpa using hno))
  have hline := hs.locked.retired hdone
  -- The loader can only exit now.
  have hld : ∀ {line : LdLine}, s.os.ld.line = line → line ≠ .detach → line ≠ .exited → False := by
    rintro line rfl hdetach hexited
    exact hline.elim hdetach hexited
  cases simStep_cases hstep with
  | timer u hu =>
      rcases Timer.time_timerRoutine hu with htime | ⟨-, -, fsh, event, hpc⟩
      · exact Or.inr (Or.inr
          (h.congr rfl rfl rfl (fun i => Timer.returned_timerRoutine hu _) htime))
      · exact absurd h.pending (hs.locked.not_pending hpc)
  | cpu i w hslot hdetach hw =>
      have hstarted : s.os.sched.Started := by
        apply hs.started.resolve_left
        intro hzero
        exact hnot (hzero.le.trans (Nat.zero_le _))
      exact h.cpu hs.locked hroom hs.stocked hs.unspent hstarted hslot hdetach hw ht.locked
        ht.punctual ht.stocked ((cpuStep_cases hw).ld.2.trans hdone)
  | cpuAnnounce i hslot hphase =>
      refine Or.inr (Or.inr (h.congr rfl rfl rfl (fun j => ?_) rfl))
      rcases eq_or_ne j i with rfl | hne
      · rw [cpuId_setDev_self]
        rfl
      · rw [cpuId_setDev_of_ne _ hne]
  | cpuReturn i hslot hphase hd =>
      have hcpu : cpuStep cfg.toConfig s.os i =
          some (s.os.setCpu i { s.os.cpu i with line := .head }) := by
        simp only [cpuStep, hslot]
      refine Or.inr (Or.inr (h.cpuDevice (by simp) (fun hp => ?_)
        (totalUsed_cpu hs.locked.sound hcpu)))
      refine hp.mono (fun j p hj => ?_) (fun j hj => ?_) id
      · rcases eq_or_ne j i with rfl | hne
        · rw [Active, os_setDev, os_setOs, cpu_setCpu_self]
          exact ⟨hj.1, Or.inl rfl⟩
        · simpa [Active, Late, hne] using hj
      · rcases eq_or_ne j i with rfl | hne
        · rw [Fetching, os_setDev, os_setOs, cpu_setCpu_self]
          refine Or.inl ⟨?_, Or.inl rfl⟩
          rcases hj with hj | hj | hj
          · exact hj.1
          · cases hslot.symm.trans hj
          · cases hslot.symm.trans hj
        · simpa [Fetching, Late, hne] using hj
  | cpuDetach i hdetach hphase =>
      have hcpu : cpuStep cfg.toConfig s.os i =
          some (s.os.setCpu i { s.os.cpu i with line := .exited }) := by
        simp only [cpuStep, hdetach]
      refine Or.inr (Or.inr (h.cpuDevice (by simp) (fun hp => ?_)
        (totalUsed_cpu hs.locked.sound hcpu)))
      refine hp.frame (i := i) (fun j hj => by simp [hj]) ?_ ?_ ?_ rfl
      · intro j hj hlate
        simpa [Late, hj] using hlate
      · rintro p ⟨-, hl⟩
        simp [hdetach, CpuLine.Holding, Late] at hl
      · simp [Fetching, hdetach, Late]
  | ld w hslot hdetach hstart hw =>
      have hlines := ldStep_lines hw
      rcases hline with hl | hl
      · exact absurd hl hdetach
      · rw [hl] at hlines
        cases hlines
  | ldAnnounce hl hphase =>
      rcases hl with hl | ⟨hl, -⟩
      · exact (hld hl (by simp) (by simp)).elim
      · exact (hld hl (by simp) (by simp)).elim
  | ldReturn hl hphase hd => exact (hld hl (by simp) (by simp)).elim
  | ldAgain hl hphase hd => exact (hld hl (by simp) (by simp)).elim
  | ldDetach hl hphase =>
      exact Or.inr (Or.inr (h.congr rfl rfl (totalUsed_congr rfl rfl rfl) (fun j => by simp) rfl))
  | main _ hmain =>
      have hsame := mainFrame hmain
      exact Or.inr (Or.inr (h.congr (by rw [hsame.os]) (by rw [hsame.os]) (by rw [hsame.os])
        (fun j => by rw [hsame.cpuId]) hsame.time))

/-- **No slot is wasted**, whatever the interleaving. -/
theorem reachable_onSchedule (hn : 0 < cfg.numCpus) (hroom : cfg.Roomy)
    {s : Simulator μ cfg.numCpus} (h : (simulator cfg).Reachable s) : OnSchedule cfg s := by
  refine h.invariant_of ?_ ?_
  · rintro s ⟨mem, rfl⟩
    exact Or.inr (Or.inl (Nat.zero_le _))
  · intro s l t hs hP hstep
    have hsup := reachable_supplied hn hroom hs
    have hsup' := reachable_supplied hn hroom (hs.step hstep)
    by_cases hmet : Met cfg s
    · exact hmet.step hsup hsup' hstep
    · rcases hP with hall | hmet' | hbehind
      · refine Or.inl fun p hp => ?_
        rcases simStep_os hstep with hos | ⟨l', hl'⟩
        · rw [hos]
          exact hall p hp
        · exact (osStep_mono hsup.locked.sound hl').1 p (hall p hp)
      · exact absurd hmet' hmet
      · exact hbehind.step hroom hsup hsup' hmet hstep

/-- When every process must be finished: past the slots in which the processes are loaded, one
slot for each instruction (one for a process without any), and one more. -/
def Setup.deadline (cfg : Setup μ) : ℕ :=
  loopSlot cfg.startTime cfg.ldProcesses.length +
    ∑ p ∈ Finset.range cfg.ldProcesses.length, max (cfg.code p).length 1 + 1

/-- Past the deadline the schedule leaves nothing to do. -/
theorem allFinished_of_deadline (hn : 0 < cfg.numCpus) (hroom : cfg.Roomy)
    {s : Simulator μ cfg.numCpus} (h : (simulator cfg).Reachable s)
    (htime : cfg.deadline < s.timer.time) : AllFinished cfg.toConfig s.os := by
  have hused := (reachable_locked h).sound.totalUsed_le
  simp only [Config.cost] at hused
  rw [Setup.deadline] at htime
  rcases reachable_onSchedule hn hroom h with hall | hmet | hbehind
  · exact hall
  · rw [Met] at hmet
    omega
  · have := hbehind.time_le
    omega

/-- **The makespan**: if there is a CPU and no queue can overflow or starve, then in every
reachable state past the deadline every process has been reported as finished and has executed
its code, whatever the number of CPUs and whatever the interleaving. -/
theorem makespan (hn : 0 < cfg.numCpus) (hroom : cfg.Roomy) {s : Simulator μ cfg.numCpus}
    (h : (simulator cfg).Reachable s) (htime : cfg.deadline < s.timer.time) {p : ℕ}
    (hp : p < cfg.ldProcesses.length) : p ∈ s.os.finished ∧ s.os.executed p = cfg.code p := by
  have hfin := allFinished_of_deadline hn hroom h htime p hp
  exact ⟨hfin, (reachable_locked h).sound.executed_of_finished hfin⟩

theorem makespan_oneCalc :
    ∃ s, (simulator (oneCalc 2)).Reachable s ∧ (oneCalc 2).deadline < s.timer.time ∧
      0 ∈ s.os.finished ∧ s.os.executed 0 = (oneCalc 2).code 0 := by
  have hrun : (((simulator (oneCalc 2)).run (Simulator.init 2 ()) (twoCpusRun 3)).any fun s =>
      3 < s.timer.time) = true := by decide +kernel
  obtain ⟨s, hs, htime⟩ := (Option.any_eq_true _ _).mp hrun
  have hreach : (simulator (oneCalc 2)).Reachable s := ⟨_, _, ⟨(), rfl⟩, hs⟩
  have hdead : (oneCalc 2).deadline < s.timer.time := of_decide_eq_true htime
  exact ⟨s, hreach, hdead, makespan Nat.two_pos (roomy_oneCalc 2) hreach hdead Nat.one_pos⟩

end SimOs.Os
