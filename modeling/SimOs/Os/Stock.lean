import SimOs.Os.Shutdown
import SimOs.Os.Simulator
import SimOs.Sched.Order
import SimOs.Lib.Simulation
import Mathlib.Algebra.Order.BigOperators.Group.Finset
import Mathlib.Data.List.Perm.Subperm

/-!
# No process is lost between the threads

A process can be lost in two ways: a full ready queue ignores it, or the scheduler returns `NULL`
to the last CPU while it waits in queue 0 with its quota used up.  A configuration is
*roomy* if neither can happen, which depends on the priorities alone.  Then every process
that was loaded is in a ready queue, on a CPU or finished, and what a CPU gets after it has
given a process away tells it the truth.

## Main definitions

* `Config.Roomy`: no queue can overflow, and queue 0 is not used.
* `Stocked`: every loaded process is in its place.
* `Stocked.ready_of_none`: what `NULL` means once a process was dispatched.
-/

namespace SimOs.Os

open SimOs.Sched World

universe u
variable {μ : Type u} {cfg : Config μ} {n : ℕ}

/-- At most `MAX_QUEUE_SIZE` processes share a priority, and none has the highest. -/
structure Config.Roomy (cfg : Config μ) : Prop where
  room : ∀ q, ((List.range cfg.ldProcesses.length).filter fun p => cfg.prio p = q).length ≤
    maxQueueSize
  lower : ∀ p, p < cfg.ldProcesses.length → cfg.prio p ≠ 0

/-- Where the loaded processes are. -/
structure Stocked (cfg : Config μ) (w : World μ n) : Prop where
  /-- Every ready queue holds processes of its own priority. -/
  sorted : Sorted cfg.prio w.sched.lists
  kept : ∀ p, p < w.ld.i → p ∈ w.owned ∨ p ∈ w.finished
  le_length : w.ld.i ≤ cfg.ldProcesses.length
  next : w.ld.line = .wait ∨ w.ld.line = .addRunning ∨ w.ld.line = .addReady →
    w.ld.i < cfg.ldProcesses.length
  /-- Only a CPU that has not called `get_proc` sees the scheduler as it was initialised. -/
  begun : w.sched.Started ∨ ∀ i, (w.cpu i).proc = none ∧
    ((w.cpu i).line = .head ∨ (w.cpu i).line = .load)

theorem stocked_init (n : ℕ) (mem : μ) : Stocked cfg (World.init n mem) where
  sorted q p hp := by simp [World.init, lists, initScheduler] at hp
  kept p hp := absurd hp (Nat.not_lt_zero p)
  le_length := Nat.zero_le _
  next h := by simp [World.init] at h
  begun := Or.inr fun _ => ⟨rfl, Or.inl rfl⟩

/-- The processes of one queue are among those that are ready. -/
theorem proc_le_ready {α : Type u} (s : Sched α) {q : ℕ} (hq : q < maxPrio) :
    ((s.mlqReadyQueue q).proc : Multiset α) ≤ s.ready := by
  -- Without this queue, what is ready is less by its processes.
  have hupdate := ready_update hq Queue.nil (s := s)
    (t := { s with mlqReadyQueue := Function.update s.mlqReadyQueue q Queue.nil }) rfl
  rw [Queue.proc_nil, Multiset.coe_nil, add_zero] at hupdate
  exact Multiset.le_iff_exists_add.mpr ⟨_, by rw [← hupdate, add_comm]⟩

/-! ## Queues have room -/

/-- A process that is not ready finds room in its queue. -/
theorem Stocked.not_refuses {w : World μ n} (h : Stocked cfg w) (hroom : cfg.Roomy)
    (hs : Sound cfg w) {p : ℕ} (hp : p < cfg.ldProcesses.length) (hprio : cfg.prio p < maxPrio)
    (hready : p ∉ w.sched.ready) : ¬ w.sched.Refuses cfg.prio p := by
  intro hfull
  let proc := (w.sched.mlqReadyQueue (cfg.prio p)).proc
  have hle : (proc : Multiset ℕ) ≤ w.sched.ready := proc_le_ready _ hprio
  have hnodup : (p :: proc).Nodup := by
    refine List.nodup_cons.mpr ⟨fun hmem => hready (Multiset.mem_of_le hle hmem), ?_⟩
    exact Multiset.coe_nodup.mp (Multiset.nodup_of_le hle (Multiset.nodup_add.mp hs.nodup).1)
  -- With `p`, the queue is part of the processes that share this priority.
  have hsub : (p :: proc).Subperm
      ((List.range cfg.ldProcesses.length).filter fun q => cfg.prio q = cfg.prio p) := by
    refine hnodup.subperm fun q hq => ?_
    rw [List.mem_filter, List.mem_range, decide_eq_true_eq]
    rcases List.mem_cons.mp hq with rfl | hq
    · exact ⟨hp, rfl⟩
    · have howned : q ∈ w.owned := Multiset.mem_add.mpr (Or.inl (Multiset.mem_of_le hle hq))
      exact ⟨(hs.owned_lt q howned).trans_le h.le_length, h.sorted _ q hq⟩
  have hlen : proc.length = maxQueueSize := hfull
  have hmany := hsub.length_le.trans (hroom.room (cfg.prio p))
  rw [List.length_cons] at hmany
  omega

/-- Queue 0 is empty. -/
theorem Stocked.not_topExhausted {w : World μ n} (h : Stocked cfg w) (hroom : cfg.Roomy)
    (hs : Sound cfg w) : ¬ w.sched.TopExhausted := by
  intro htop
  obtain ⟨p, hp⟩ := List.exists_mem_of_ne_nil _ (mt Queue.size_eq_zero.mpr htop.top)
  have hready : p ∈ w.sched.ready := Multiset.mem_of_le (proc_le_ready _ (by decide)) hp
  have hlt := (hs.owned_lt p (Multiset.mem_add.mpr (Or.inl hready))).trans_le h.le_length
  exact hroom.lower p hlt (h.sorted 0 p hp)

/-- **What `NULL` means** once the scheduler has started: no process is ready. -/
theorem Stocked.ready_of_none {w : World μ n} (h : Stocked cfg w) (hroom : cfg.Roomy)
    (hs : Sound cfg w) (hstarted : w.sched.Started)
    (hnone : (getProc cfg.prio w.sched).1 = none) : w.sched.ready = 0 :=
  allEmpty_iff_ready.mp (hstarted.allEmpty_of_none (h.not_topExhausted hroom hs) hnone)

/-- `get_proc` does not change what is ready if it returns `NULL`. -/
theorem ready_getProc_none {prio : ℕ → ℕ} {s : Sched ℕ} (hs : s.Counters)
    (hnone : (getProc prio s).1 = none) : (getProc prio s).2.ready = s.ready := by
  have hready := ready_getMlqProc prio hs
  rw [getProc] at hnone
  rw [hnone, Option.toList_none, Multiset.coe_nil, zero_add] at hready
  exact hready.symm

/-! ## The steps -/

/-- **A CPU loses nothing**: it gives a process up to a queue with room, or because it has
finished. -/
theorem CpuCase.mem_owned {w v : World μ n} {i : Fin n} (hs : w.sched.Counters)
    (h : CpuCase cfg w i v)
    (hroom : ∀ p t, w.cpu i = ⟨.putReady, some p, t⟩ → ¬ w.sched.Refuses cfg.prio p) {p : ℕ}
    (hp : p ∈ w.owned ∨ p ∈ w.finished) : p ∈ v.owned ∨ p ∈ v.finished := by
  cases h with
  | goto c hcur _ =>
      have heq : (w.setCpu i c).owned = w.owned :=
        owned_congr rfl (current_setCpu_of_eq hcur)
      rwa [heq]
  | finish q t hcur _ =>
      rw [owned_finish (t := t) hcur, Multiset.mem_cons] at hp
      rcases hp with (rfl | hp) | hp
      · exact Or.inr (List.mem_append_right _ (List.mem_singleton_self p))
      · exact Or.inl hp
      · exact Or.inr (List.mem_append_left _ hp)
  | enlist q t hcpu =>
      have heq : ((w.setSched (w.sched.enlistRunning q)).setCpu i ⟨.putReady, some q, t⟩).owned =
          w.owned := by
        refine owned_congr (by simp) ?_
        rw [current_setCpu_of_eq (by rw [cpu_setSched, hcpu]; rfl), current_setSched]
      rwa [heq]
  | put q t s hcpu hput =>
      have hcur : (w.cpu i).current = some q := by rw [hcpu]; rfl
      have hgive := current_setCpu_none (w := w.setSched s) (c := ⟨.reload, some q, t⟩) hcur rfl
      have hready := ready_putMlqProc hput
      rw [if_neg (hroom q t hcpu), Multiset.singleton_add] at hready
      rw [current_setSched] at hgive
      have heq : ((w.setSched s).setCpu i ⟨.reload, some q, t⟩).owned = w.owned := by
        rw [World.owned, World.owned, hgive, Multiset.add_cons, ← Multiset.cons_add, ← hready]
        rfl
      rwa [heq]
  | get c hcur hproc _ =>
      have htake := current_setCpu_some (w := w.setSched (getProc cfg.prio w.sched).2) hcur hproc
      have hready := ready_getMlqProc cfg.prio hs
      have heq : ((w.setSched (getProc cfg.prio w.sched).2).setCpu i c).owned = w.owned := by
        rw [World.owned, World.owned, htake, hready, sched_setCpu, sched_setSched,
          current_setSched]
        simp only [getProc]
        abel
      rwa [heq]
  | run q c v hcur hc _ hv =>
      obtain ⟨hsched, hcpu, -, -, hfin⟩ := run_frame hv
      have heq : (v.setCpu i c).owned = w.owned := by
        refine owned_congr (by rw [sched_setCpu, hsched]) ?_
        rw [current_setCpu_of_eq (by rw [hcpu, hc, hcur]), World.current, World.current, hcpu]
      have hfin' : (v.setCpu i c).finished = w.finished := hfin
      rwa [heq, hfin']

/-- `put_mlq_proc` and `add_mlq_proc` keep the queues sorted. -/
theorem sorted_putMlqProc {s t : Sched ℕ} {p : ℕ} (h : Sorted cfg.prio s.lists)
    (hput : putMlqProc cfg.prio s p = some t) : Sorted cfg.prio t.lists := by
  by_cases hfull : s.Refuses cfg.prio p
  · obtain ⟨-, rfl⟩ := (putMlqProc_eq_some cfg.prio).mp hput
    rw [Queue.enqueue_of_full hfull, Function.update_eq_self]
    exact h
  · refine h.step ?_ (putMlqProc_step hput hfull)
    intro q r hop
    obtain ⟨rfl, rfl⟩ := Fifo.Op.enter.inj hop
    rfl

/-- So does `get_mlq_proc`. -/
theorem sorted_getProc {s : Sched ℕ} (hs : s.Counters) (h : Sorted cfg.prio s.lists) :
    Sorted cfg.prio (getProc cfg.prio s).2.lists := by
  refine h.step ?_ (getMlqProc_step hs h)
  intro q r hop
  rw [fifoOp] at hop
  split at hop <;> cases hop

theorem CpuCase.sorted {w v : World μ n} {i : Fin n} (hs : w.sched.Counters)
    (hsorted : Sorted cfg.prio w.sched.lists) (h : CpuCase cfg w i v) :
    Sorted cfg.prio v.sched.lists := by
  cases h with
  | goto c _ _ => exact hsorted
  | finish q t _ _ => exact hsorted
  | enlist q t _ => exact hsorted
  | put q t s _ hput => exact sorted_putMlqProc hsorted hput
  | get c _ _ _ => exact sorted_getProc hs hsorted
  | run q c v _ _ _ hv =>
      rw [sched_setCpu, (run_frame hv).1]
      exact hsorted

/-- The scheduler does not forget that it has started. -/
theorem started_congr {α : Type u} {s t : Sched α} (h : s.Started) (hflag : t.flag = s.flag)
    (hmark : t.markedPrior = s.markedPrior) (hcount : t.count = s.count)
    (hslot : t.slot = s.slot) : t.Started := by
  rcases Counters.congr (Or.inr h) hflag hmark hcount hslot with hfresh | hstarted
  · rcases h with h | h
    · have := hfresh.count.symm.trans (hcount.trans h.count)
      exact absurd this (by decide)
    · exact absurd (hfresh.flag.symm.trans (hflag.trans h.flag)) (by simp)
  · exact hstarted

/-- No step of a CPU undoes that the scheduler has started. -/
theorem CpuCase.started {w v : World μ n} {i : Fin n} (hs : w.sched.Counters)
    (hstarted : w.sched.Started) (h : CpuCase cfg w i v) : v.sched.Started := by
  cases h with
  | goto c _ _ => exact hstarted
  | finish q t _ _ => exact hstarted
  | enlist q t _ => exact started_congr hstarted rfl rfl rfl rfl
  | put q t s _ hput =>
      obtain ⟨hf, hm, hc, hsl⟩ := putMlqProc_counters hput
      exact started_congr hstarted hf hm hc hsl
  | get c _ _ _ => exact hs.started_getMlqProc
  | run q c v _ _ _ hv =>
      rw [sched_setCpu, (run_frame hv).1]
      exact hstarted

/-- So it is with the loader. -/
theorem started_step {w v : World μ n} {l : Label n} (hs : w.sched.Counters)
    (hstarted : w.sched.Started) (h : osStep cfg w l = some v) : v.sched.Started := by
  cases l with
  | cpu i => exact (cpuStep_cases h).started hs hstarted
  | loader =>
      have hld := ldStep_lines h
      generalize w.ld.line = line at hld
      cases hld with
      | addRunning => exact started_congr hstarted rfl rfl rfl rfl
      | addReady s hadd =>
          obtain ⟨hf, hm, hc, hsl⟩ := putMlqProc_counters hadd
          exact started_congr hstarted hf hm hc hsl
      | _ => exact hstarted
  | loaderWait =>
      rw [osStep_loaderWait h]
      exact hstarted

/-- The first `get_proc` of a CPU starts the scheduler. -/
theorem Stocked.begun_cpu {w v : World μ n} {i : Fin n} (h : Stocked cfg w) (hs : Sound cfg w)
    (hstep : cpuStep cfg w i = some v) : v.sched.Started ∨ ∀ j, (v.cpu j).proc = none ∧
      ((v.cpu j).line = .head ∨ (v.cpu j).line = .load) := by
  rcases h.begun with hstarted | hidle
  · exact Or.inl ((cpuStep_cases hstep).started hs.counters hstarted)
  · have hline := cpuStep_lines hstep
    obtain ⟨hproc, hat⟩ := hidle i
    rcases hcpu : w.cpu i with ⟨line, proc, t⟩
    rw [hcpu] at hline hproc hat
    obtain rfl : proc = none := hproc
    rcases hat with hat | hat
    · obtain rfl : line = .head := hat
      cases hline
      right
      intro j
      rcases eq_or_ne j i with rfl | hne
      · rw [cpu_setCpu_self]
        exact ⟨rfl, Or.inr rfl⟩
      · rw [cpu_setCpu_of_ne _ hne]
        exact hidle j
    · obtain rfl : line = .load := hat
      cases hline
      exact Or.inl hs.counters.started_getMlqProc

/-- No process is ready and held at once. -/
theorem Sound.not_ready_of_current {w : World μ n} (h : Sound cfg w) {i : Fin n} {p : ℕ}
    (hcur : (w.cpu i).current = some p) : p ∉ w.sched.ready := by
  intro hready
  refine Multiset.disjoint_left.mp (Multiset.nodup_add.mp h.nodup).2.2 hready ?_
  refine Multiset.mem_sum.mpr ⟨i, Finset.mem_univ i, ?_⟩
  rw [hcur]
  simp

/-- **One step of a CPU** leaves every process in its place. -/
theorem Stocked.cpu {w v : World μ n} {i : Fin n} (h : Stocked cfg w) (hroom : cfg.Roomy)
    (hs : Sound cfg w) (hstep : cpuStep cfg w i = some v) : Stocked cfg v := by
  have hcase := cpuStep_cases hstep
  obtain ⟨hld, -⟩ := hcase.ld
  refine ⟨hcase.sorted hs.counters h.sorted, ?_, by rw [hld]; exact h.le_length,
    by rw [hld]; exact h.next, h.begun_cpu hs hstep⟩
  intro p hp
  rw [hld] at hp
  refine hcase.mem_owned hs.counters ?_ (h.kept p hp)
  intro q t hcpu
  have hcur : (w.cpu i).current = some q := by rw [hcpu]; rfl
  have hmem := mem_owned_of_current hcur
  have hprio : cfg.prio q < maxPrio := by
    rw [cpuStep, hcpu] at hstep
    obtain ⟨s, hput, -⟩ := Option.map_eq_some_iff.mp hstep
    exact ((putMlqProc_eq_some cfg.prio).mp hput).1
  exact h.not_refuses hroom hs ((hs.owned_lt q hmem).trans_le h.le_length) hprio
    (hs.not_ready_of_current hcur)

/-- A step of the loader that adds nothing. -/
theorem Stocked.of_ld {w : World μ n} (h : Stocked cfg w) {s : Sched ℕ} {line : LdLine}
    {done : Bool} (hs : s.mlqReadyQueue = w.sched.mlqReadyQueue) (hflag : s.flag = w.sched.flag)
    (hmark : s.markedPrior = w.sched.markedPrior) (hcount : s.count = w.sched.count)
    (hslot : s.slot = w.sched.slot)
    (hnext : line = .wait ∨ line = .addRunning ∨ line = .addReady →
      w.ld.i < cfg.ldProcesses.length) :
    Stocked cfg { w with sched := s, ld := ⟨line, w.ld.i⟩, done := done } where
  sorted := by
    intro q p hp
    simp only [lists, hs] at hp
    exact h.sorted q p hp
  kept p hp := by
    have heq : World.owned { w with sched := s, ld := ⟨line, w.ld.i⟩, done := done } = w.owned :=
      owned_congr (ready_congr hs) rfl
    rw [heq]
    exact h.kept p hp
  le_length := h.le_length
  next := hnext
  begun := h.begun.imp (fun hst => started_congr hst hflag hmark hcount hslot) id

/-- The loader adds a process that finds room. -/
theorem Stocked.add {w : World μ n} (h : Stocked cfg w) (hroom : cfg.Roomy) (hs : Sound cfg w)
    (hline : w.ld.line = .addReady) {s : Sched ℕ}
    (hadd : addMlqProc cfg.prio w.sched w.ld.i = some s) :
    Stocked cfg { w.setSched s with ld := ⟨.slot, w.ld.i + 1⟩ } := by
  have hlt := h.next (Or.inr (Or.inr hline))
  have hput : putMlqProc cfg.prio w.sched w.ld.i = some s := hadd
  have hprio := ((putMlqProc_eq_some cfg.prio).mp hput).1
  have hfresh : w.ld.i ∉ w.sched.ready := fun hmem =>
    absurd (hs.owned_lt _ (Multiset.mem_add.mpr (Or.inl hmem))) (lt_irrefl _)
  have hready := ready_putMlqProc hput
  rw [if_neg (h.not_refuses hroom hs hlt hprio hfresh), Multiset.singleton_add] at hready
  obtain ⟨hf, hm, hc, hsl⟩ := putMlqProc_counters hput
  have howned : World.owned { w.setSched s with ld := ⟨.slot, w.ld.i + 1⟩ } =
      w.ld.i ::ₘ w.owned := by
    rw [World.owned, World.owned, ← Multiset.cons_add, ← hready]
    rfl
  refine ⟨sorted_putMlqProc h.sorted hput, ?_, hlt, fun hnext => by simp at hnext,
    h.begun.imp (fun hst => started_congr hst hf hm hc hsl) id⟩
  intro p hp
  rw [howned, Multiset.mem_cons]
  rcases Nat.lt_succ_iff_lt_or_eq.mp hp with hlt | rfl
  · exact (h.kept p hlt).imp Or.inr id
  · exact Or.inl (Or.inl rfl)

/-- **One step of the loader** leaves every process in its place. -/
theorem Stocked.ld {w v : World μ n} (h : Stocked cfg w) (hroom : cfg.Roomy) (hs : Sound cfg w)
    (hstep : ldStep cfg w = some v) : Stocked cfg v := by
  have hld := ldStep_lines hstep
  cases hline : w.ld.line <;> rw [hline] at hld
  case head =>
    cases hld with
    | next hlt => exact h.of_ld rfl rfl rfl rfl rfl fun _ => hlt
    | done hge => exact h.of_ld rfl rfl rfl rfl rfl (by simp)
  case wait =>
    cases hld
    exact h.of_ld rfl rfl rfl rfl rfl fun _ => h.next (Or.inl hline)
  case addRunning =>
    cases hld
    exact h.of_ld rfl rfl rfl rfl rfl fun _ => h.next (Or.inr (Or.inl hline))
  case addReady =>
    cases hld with
    | addReady s hadd => exact h.add hroom hs hline hadd
  case slot =>
    cases hld
    exact h.of_ld rfl rfl rfl rfl rfl (by simp)
  case detach =>
    cases hld
    exact h.of_ld rfl rfl rfl rfl rfl (by simp)
  case exited => cases hld

/-- **One step of the system** leaves every process in its place. -/
theorem Stocked.step {w v : World μ n} {l : Label n} (h : Stocked cfg w) (hroom : cfg.Roomy)
    (hs : Sound cfg w) (hstep : osStep cfg w l = some v) : Stocked cfg v := by
  cases l with
  | cpu i => exact h.cpu hroom hs hstep
  | loader => exact h.ld hroom hs hstep
  | loaderWait =>
      rw [osStep_loaderWait hstep]
      exact h

theorem reachable_stocked (hroom : cfg.Roomy) {w : World μ cfg.numCpus}
    (h : (osSystem cfg).Reachable w) : Stocked cfg w := by
  refine h.invariant_of ?_ fun w _ _ hw hP hstep => hP.step hroom (reachable_sound hw) hstep
  rintro w ⟨mem, rfl⟩
  exact stocked_init _ mem

/-! ## Finished processes -/

/-- A process that was reported as finished has executed its code. -/
theorem Sound.executed_of_finished {w : World μ n} (h : Sound cfg w) {p : ℕ}
    (hp : p ∈ w.finished) : w.executed p = cfg.code p := by
  rw [h.executed p, h.complete p hp, List.take_length]

/-- If every process is reported as finished, then each is once. -/
theorem Sound.finished_perm {w : World μ n} (h : Sound cfg w)
    (hle : w.ld.i ≤ cfg.ldProcesses.length)
    (hall : ∀ p, p < cfg.ldProcesses.length → p ∈ w.finished) :
    w.finished.Perm (List.range cfg.ldProcesses.length) := by
  refine (List.perm_ext_iff_of_nodup h.finished_nodup List.nodup_range).mpr ?_
  intro p
  rw [List.mem_range]
  exact ⟨fun hp => (h.finished_lt p hp).trans_le hle, hall p⟩

/-- One process of lower priority has room. -/
theorem roomy_oneCalc (n : ℕ) : (oneCalc n).Roomy where
  room q := (List.length_filter_le _ _).trans (by simp [maxQueueSize])
  lower p hp := by
    obtain rfl : p = 0 := by simpa using hp
    exact Nat.one_ne_zero

end SimOs.Os
