import SimOs.Os.Stock

/-!
# What a call of `run` is worth

A process needs one slot for each of its instructions, and one slot even if it has none: it
is dispatched before a CPU finds out that it is complete.  `used` counts the slots in which
a process was run.  No step takes anything back, and no call of `run` is for nothing: a
process that is ready, or that a CPU is about to run, has an instruction left or was never
run.

## Main definitions

* `Config.cost`, `World.used`: the slots a process needs, and has had.
* `World.totalUsed`: the slots of all processes.
* `Unspent`: every process that will be run has a use for it.
* `totalUsed_run`: a call of `run` counts.
-/

namespace SimOs.Os

open SimOs.Sched World

universe u
variable {μ : Type u} {cfg : Config μ} {n : ℕ}

/-- The slots that process `p` needs. -/
def Config.cost (cfg : Config μ) (p : ℕ) : ℕ := max (cfg.code p).length 1

/-- A process that was run: it is finished, or the CPU that holds it has not yet looked at
its `pc` again. -/
def World.Dispatched (w : World μ n) (p : ℕ) : Prop :=
  p ∈ w.finished ∨ ∃ i, (w.cpu i).proc = some p ∧
    ((w.cpu i).line = .slot ∨ (w.cpu i).line = .head)

instance (w : World μ n) (p : ℕ) : Decidable (w.Dispatched p) :=
  inferInstanceAs (Decidable (p ∈ w.finished ∨ ∃ i, (w.cpu i).proc = some p ∧
    ((w.cpu i).line = .slot ∨ (w.cpu i).line = .head)))

/-- The slots in which process `p` was run. -/
def World.used (cfg : Config μ) (w : World μ n) (p : ℕ) : ℕ :=
  w.pc p + if cfg.code p = [] ∧ w.Dispatched p then 1 else 0

/-- The slots in which the processes were run. -/
def World.totalUsed (cfg : Config μ) (w : World μ n) : ℕ :=
  ∑ p ∈ Finset.range cfg.ldProcesses.length, w.used cfg p

theorem Sound.used_le {w : World μ n} (h : Sound cfg w) (p : ℕ) : w.used cfg p ≤ cfg.cost p := by
  have hpc := h.pc_le p
  rw [World.used, Config.cost]
  split
  · next hif =>
      rw [hif.1, List.length_nil] at hpc
      omega
  · exact hpc.trans (le_max_left _ _)

theorem Sound.totalUsed_le {w : World μ n} (h : Sound cfg w) :
    w.totalUsed cfg ≤ ∑ p ∈ Finset.range cfg.ldProcesses.length, cfg.cost p :=
  Finset.sum_le_sum fun p _ => h.used_le p

/-- A process without instructions that was run is reported before it is given away. -/
theorem dispatched_cpu {w v : World μ n} {i : Fin n} (hw : Sound cfg w)
    (h : cpuStep cfg w i = some v) {p : ℕ} (hcode : cfg.code p = []) (hdisp : w.Dispatched p) :
    v.Dispatched p := by
  have hcase := cpuStep_cases h
  rcases hdisp with hfin | ⟨j, hproc, hline⟩
  · rcases hcase.finished with heq | ⟨q, heq, -⟩
    · exact Or.inl (heq ▸ hfin)
    · exact Or.inl (heq ▸ List.mem_append_left _ hfin)
  · by_cases hj : j = i
    · subst hj
      have hlines := cpuStep_lines h
      have hpc : w.pc p = (cfg.code p).length := by
        have := hw.pc_le p
        rw [hcode, List.length_nil] at this ⊢
        omega
      rcases hcpu : w.cpu j with ⟨line, proc, t⟩
      rw [hcpu] at hlines hproc hline
      obtain rfl : proc = some p := hproc
      rcases hline with hline | hline
      · obtain rfl : line = .slot := hline
        cases hlines
        exact Or.inr ⟨j, by rw [cpu_setCpu_self], Or.inr (by rw [cpu_setCpu_self])⟩
      · obtain rfl : line = .head := hline
        cases hlines with
        | headFinished => exact Or.inl (List.mem_append_right _ (List.mem_singleton_self p))
        | headOver _ hne => exact absurd hpc hne
        | headOn _ _ hne _ => exact absurd hpc hne
    · exact Or.inr ⟨j, by rwa [hcase.cpu_of_ne hj], by rwa [hcase.cpu_of_ne hj]⟩

/-- **A CPU takes nothing back.** -/
theorem used_cpu {w v : World μ n} {i : Fin n} (hw : Sound cfg w)
    (h : cpuStep cfg w i = some v) (p : ℕ) : w.used cfg p ≤ v.used cfg p := by
  have hpc : w.pc p ≤ v.pc p := by
    rcases (cpuStep_cases h).pc with ⟨hpc, -⟩ | ⟨q, ins, -, -, hpc, -⟩
    · rw [hpc]
    · rw [hpc]
      rcases eq_or_ne p q with rfl | hne
      · rw [Function.update_self]
        exact Nat.le_succ _
      · rw [Function.update_of_ne hne]
  rw [World.used, World.used]
  by_cases hif : cfg.code p = [] ∧ w.Dispatched p
  · rw [if_pos hif, if_pos ⟨hif.1, dispatched_cpu hw h hif.1 hif.2⟩]
    omega
  · rw [if_neg hif]
    omega

/-! ## Processes that will be run -/

/-- The process has a use for a slot. -/
def Open (cfg : Config μ) (w : World μ n) (p : ℕ) : Prop :=
  w.pc p ≠ (cfg.code p).length ∨ cfg.code p = []

/-- A CPU that will put back or run the process it holds. -/
def CpuLine.Holding (l : CpuLine) : Prop :=
  l = .putRunning ∨ l = .putReady ∨ l = .check ∨ l = .run

/-- Every process that is ready, or held to be put back or run, has a use for a slot. -/
structure Unspent (cfg : Config μ) (w : World μ n) : Prop where
  ready : ∀ p ∈ w.sched.ready, Open cfg w p
  held : ∀ i p, (w.cpu i).line.Holding → (w.cpu i).proc = some p → Open cfg w p
  later : ∀ p, w.ld.i ≤ p → w.pc p = 0

theorem unspent_init (n : ℕ) (mem : μ) : Unspent cfg (World.init n mem) where
  ready p hp := by simp [World.init, Sched.ready, initScheduler] at hp
  held i p h := by simp [World.init, CpuLine.Holding] at h
  later _ _ := rfl

/-- What `get_proc` returns was ready, and what is ready afterwards was so before. -/
theorem mem_ready_getProc {prio : ℕ → ℕ} {s : Sched ℕ} (hs : s.Counters) {p : ℕ}
    (hp : (getProc prio s).1 = some p ∨ p ∈ (getProc prio s).2.ready) : p ∈ s.ready := by
  rw [ready_getMlqProc prio hs, Multiset.mem_add]
  refine hp.imp (fun hret => ?_) id
  rw [getProc] at hret
  rw [hret]
  simp

/-- A process that is put in is the only new one. -/
theorem mem_ready_putMlqProc {prio : ℕ → ℕ} {s t : Sched ℕ} {p q : ℕ}
    (h : putMlqProc prio s p = some t) (hq : q ∈ t.ready) : q = p ∨ q ∈ s.ready :=
  Multiset.mem_cons.mp (Multiset.mem_of_le (ready_putMlqProc_le h) hq)

/-- What a step of a CPU makes ready was ready, or it was held to be put back. -/
theorem cpuStep_ready {w v : World μ n} {i : Fin n} (hw : Sound cfg w)
    (h : cpuStep cfg w i = some v) {p : ℕ} (hp : p ∈ v.sched.ready) :
    p ∈ w.sched.ready ∨ (w.cpu i).line = .putReady ∧ (w.cpu i).proc = some p := by
  cases cpuStep_cases h with
  | goto c _ _ => exact Or.inl hp
  | finish q t _ _ => exact Or.inl hp
  | enlist q t _ =>
      rw [sched_setCpu, sched_setSched, ready_enlistRunning] at hp
      exact Or.inl hp
  | put q t s hcpu hput =>
      rcases mem_ready_putMlqProc hput hp with rfl | hp
      · exact Or.inr ⟨by rw [hcpu], by rw [hcpu]⟩
      · exact Or.inl hp
  | get c _ _ _ => exact Or.inl (mem_ready_getProc hw.counters (Or.inr hp))
  | run q c v _ _ _ hv =>
      rw [sched_setCpu, (run_frame hv).1] at hp
      exact Or.inl hp

/-- A CPU holds to put back or to run what it got, what it held so before, or what it found
incomplete. -/
theorem cpuStep_holding {w v : World μ n} {i : Fin n} (hw : Sound cfg w)
    (h : cpuStep cfg w i = some v) {p : ℕ} (hline : (v.cpu i).line.Holding)
    (hp : (v.cpu i).proc = some p) :
    p ∈ w.sched.ready ∨ (w.cpu i).line.Holding ∧ (w.cpu i).proc = some p ∨
      w.pc p ≠ (cfg.code p).length := by
  have hstep := cpuStep_lines h
  rcases hcpu : w.cpu i with ⟨line, proc, t⟩
  rw [hcpu] at hstep
  cases hstep with
  | headOver q hpc =>
      rw [cpu_setCpu_self] at hp
      obtain rfl : q = p := Option.some.inj hp
      exact Or.inr (Or.inr hpc)
  | headOn q _ hpc _ =>
      rw [cpu_setCpu_self] at hp
      obtain rfl : q = p := Option.some.inj hp
      exact Or.inr (Or.inr hpc)
  | load =>
      rw [cpu_setCpu_self] at hp
      exact Or.inl (mem_ready_getProc hw.counters (Or.inl hp))
  | reload =>
      rw [cpu_setCpu_self] at hp
      exact Or.inl (mem_ready_getProc hw.counters (Or.inl hp))
  | putRunning q =>
      rw [cpu_setCpu_self] at hp
      exact Or.inr (Or.inl ⟨Or.inl rfl, hp⟩)
  | check q =>
      rw [cpu_setCpu_self] at hp
      exact Or.inr (Or.inl ⟨Or.inr (Or.inr (Or.inl rfl)), hp⟩)
  | checkEmpty =>
      rw [cpu_setCpu_self] at hp
      cases hp
  | _ =>
      rw [cpu_setCpu_self] at hline
      simp [CpuLine.Holding] at hline

theorem CpuLine.Holding.current {c : Cpu} (h : c.line.Holding) : c.current = c.proc := by
  rcases h with h | h | h | h <;> rw [Cpu.current, h]

/-- **One step of a CPU.** -/
theorem Unspent.cpu {w v : World μ n} {i : Fin n} (h : Unspent cfg w) (hw : Sound cfg w)
    (hstep : cpuStep cfg w i = some v) : Unspent cfg v := by
  have hcase := cpuStep_cases hstep
  -- The `pc` that moves is that of a process which then is neither ready nor held so.
  have hkeep : ∀ {p}, Open cfg w p → ((w.cpu i).current = some p → (w.cpu i).line ≠ .run) →
      Open cfg v p := by
    intro p hopen hno
    have hpc : v.pc p = w.pc p := by
      have hline := cpuStep_lines hstep
      rcases hcpu : w.cpu i with ⟨line, proc, t⟩
      rw [hcpu] at hline hno
      cases hline with
      | run q _ u hu =>
          rcases run_cases hu with ⟨rfl, -⟩ | ⟨ins, mem, -, rfl⟩
          · rfl
          · refine Function.update_of_ne ?_ ..
            rintro rfl
            exact hno rfl rfl
      | _ => rfl
    rw [Open, hpc]
    exact hopen
  refine ⟨?_, ?_, ?_⟩
  · intro p hp
    rcases cpuStep_ready hw hstep hp with hp | ⟨hline, hproc⟩
    · exact hkeep (h.ready p hp) fun hcur => absurd hp (hw.not_ready_of_current hcur)
    · refine hkeep (h.held i p (Or.inr (Or.inl hline)) hproc) fun _ hrun => ?_
      cases hline.symm.trans hrun
  · intro j p hline hproc
    by_cases hj : j = i
    · subst hj
      -- A CPU that calls `run` goes to `next_slot`.
      have hnorun : (w.cpu j).line ≠ .run := by
        intro hrun
        have hlines := cpuStep_lines hstep
        rcases hcpu : w.cpu j with ⟨l, q, t⟩
        rw [hcpu] at hlines hrun
        obtain rfl : l = .run := hrun
        cases hlines
        rw [cpu_setCpu_self] at hline
        simp [CpuLine.Holding] at hline
      rcases cpuStep_holding hw hstep hline hproc with hp | ⟨hl, hp⟩ | hpc
      · exact hkeep (h.ready p hp) fun _ => hnorun
      · exact hkeep (h.held j p hl hp) fun _ => hnorun
      · exact hkeep (Or.inl hpc) fun _ => hnorun
    · rw [hcase.cpu_of_ne hj] at hline hproc
      have hcur := hline.current.trans hproc
      exact hkeep (h.held j p hline hproc) fun hi => absurd (current_injective hw.nodup hcur hi) hj
  · intro p hp
    rw [hcase.ld.1] at hp
    rw [hcase.pc_of_ne fun hcur => ?_]
    · exact h.later p hp
    · exact absurd (hw.owned_lt p (mem_owned_of_current hcur)) (Nat.not_lt_of_le hp)

/-- **One step of the loader.** -/
theorem Unspent.ld {w v : World μ n} (h : Unspent cfg w) (hstep : ldStep cfg w = some v) :
    Unspent cfg v := by
  have hld := ldStep_lines hstep
  have hsame : ∀ {s : Sched ℕ} {line : LdLine} {done : Bool}, s.ready = w.sched.ready →
      Unspent cfg { w with sched := s, ld := ⟨line, w.ld.i⟩, done := done } := by
    intro s line done hready
    exact ⟨fun p hp => h.ready p (hready ▸ hp), h.held, h.later⟩
  generalize w.ld.line = line at hld
  cases hld with
  | next => exact hsame rfl
  | done => exact hsame rfl
  | wait => exact hsame rfl
  | addRunning => exact hsame (ready_enlistRunning _ _)
  | addReady s hadd =>
      refine ⟨fun p hp => ?_, h.held, fun p hp => h.later p (Nat.le_of_succ_le hp)⟩
      rcases mem_ready_putMlqProc hadd hp with rfl | hp
      · -- A new process is complete only if it has no instructions.
        by_cases hcode : cfg.code w.ld.i = []
        · exact Or.inr hcode
        · refine Or.inl ?_
          simp only [World.setSched, h.later _ le_rfl]
          exact fun hlen => hcode (List.length_eq_zero_iff.mp hlen.symm)
      · exact h.ready p hp
  | slot => exact hsame rfl
  | detach => exact hsame rfl

/-- **One step of the system.** -/
theorem Unspent.step {w v : World μ n} {l : Label n} (h : Unspent cfg w) (hw : Sound cfg w)
    (hstep : osStep cfg w l = some v) : Unspent cfg v := by
  cases l with
  | cpu i => exact h.cpu hw hstep
  | loader => exact h.ld hstep
  | loaderWait =>
      rw [osStep_loaderWait hstep]
      exact h

theorem reachable_unspent {w : World μ cfg.numCpus} (h : (osSystem cfg).Reachable w) :
    Unspent cfg w := by
  refine h.invariant_of ?_ fun w _ _ hw hP hstep => hP.step (reachable_sound hw) hstep
  rintro w ⟨mem, rfl⟩
  exact unspent_init _ mem

/-! ## A call of `run` -/

/-- The process that is run gets a slot. -/
theorem used_run {w v : World μ n} {i : Fin n} {p : ℕ} {t : ℤ} (hw : Sound cfg w)
    (hcpu : w.cpu i = ⟨.run, some p, t⟩) (hopen : Open cfg w p) (hv : run cfg w p = some v) :
    w.used cfg p + 1 ≤ (v.setCpu i ⟨.slot, some p, t - 1⟩).used cfg p := by
  have hcur : (w.cpu i).current = some p := by rw [hcpu]; rfl
  have hnot : ¬ w.Dispatched p := by
    rintro (hfin | ⟨j, hproc, hline⟩)
    · exact hw.finished_not_owned p hfin (mem_owned_of_current hcur)
    · have hj : (w.cpu j).current = some p := by
        rcases hline with hline | hline <;> rw [Cpu.current, hline] <;> exact hproc
      obtain rfl := current_injective hw.nodup hj hcur
      rw [hcpu] at hline
      rcases hline with hline | hline <;> cases hline
  have hdisp : (v.setCpu i ⟨.slot, some p, t - 1⟩).Dispatched p :=
    Or.inr ⟨i, by rw [cpu_setCpu_self], Or.inl (by rw [cpu_setCpu_self])⟩
  rw [World.used, World.used, if_neg fun hif => hnot hif.2, Nat.add_zero]
  by_cases hcode : cfg.code p = []
  · rw [if_pos ⟨hcode, hdisp⟩]
    have := hw.pc_le p
    rw [hcode, List.length_nil] at this
    omega
  · have hlt : w.pc p < (cfg.code p).length :=
      lt_of_le_of_ne (hw.pc_le p) (hopen.resolve_right hcode)
    rcases run_cases hv with ⟨-, hge⟩ | ⟨ins, mem, -, rfl⟩
    · omega
    · simp only [World.setCpu, Function.update_self]
      exact Nat.le_add_right _ _

/-- **A call of `run` counts.** -/
theorem totalUsed_run {w v : World μ n} {i : Fin n} (hw : Sound cfg w) (hu : Unspent cfg w)
    (hlen : w.ld.i ≤ cfg.ldProcesses.length) (hline : (w.cpu i).line = .run)
    (hstep : cpuStep cfg w i = some v) : w.totalUsed cfg + 1 ≤ v.totalUsed cfg := by
  have hlines := cpuStep_lines hstep
  rcases hcpu : w.cpu i with ⟨line, proc, t⟩
  rw [hcpu] at hlines hline
  obtain rfl : line = .run := hline
  cases hlines with
  | run p _ u hrun =>
      have hopen := hu.held i p (by rw [hcpu]; simp [CpuLine.Holding]) (by rw [hcpu])
      have hp : p ∈ Finset.range cfg.ldProcesses.length := by
        rw [Finset.mem_range]
        exact (hw.owned_lt p (mem_owned_of_current (by rw [hcpu]; rfl))).trans_le hlen
      rw [World.totalUsed, World.totalUsed, ← Finset.add_sum_erase _ _ hp,
        ← Finset.add_sum_erase _ (World.used cfg _) hp]
      have hone := used_run hw hcpu hopen hrun
      have hrest := Finset.sum_le_sum fun q (_ : q ∈
        (Finset.range cfg.ldProcesses.length).erase p) => used_cpu hw hstep q
      omega

theorem totalUsed_cpu {w v : World μ n} {i : Fin n} (hw : Sound cfg w)
    (hstep : cpuStep cfg w i = some v) : w.totalUsed cfg ≤ v.totalUsed cfg :=
  Finset.sum_le_sum fun p _ => used_cpu hw hstep p

/-- The loader and the timer leave the uses alone. -/
theorem totalUsed_congr {w v : World μ n} (hpc : v.pc = w.pc) (hcpu : v.cpu = w.cpu)
    (hfin : v.finished = w.finished) : v.totalUsed cfg = w.totalUsed cfg := by
  refine Finset.sum_congr rfl fun p _ => ?_
  have hdisp : v.Dispatched p ↔ w.Dispatched p := by rw [Dispatched, Dispatched, hcpu, hfin]
  simp only [World.used, hpc, hdisp]

end SimOs.Os
