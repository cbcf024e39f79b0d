import SimOs.Os.Ownership

/-!
# What the running list lists

`killall` walks `running_list` for the processes to terminate.  `add_proc` enters a
process there, and nothing ever takes one out: `put_proc` enters it again after every
slice, and a CPU whose process is complete frees the control block and leaves the
pointer.  The list is an array of `MAX_QUEUE_SIZE` entries, and `enqueue` ignores what
does not fit.

`accurate_step` says for every step whether it keeps the list accurate, and
`running_list_accurate_iff` collects the steps of a run.

## Main definitions

* `World.Added`, `Accurate`: the list has every unfinished process once.
* `KeepsList`: the steps that do not spoil it.
* `running_list_accurate_iff`: the list is accurate all along a run exactly if all its
  steps are such.
-/

namespace SimOs.Os

open SimOs.Sched World

universe u
variable {μ : Type u} {cfg : Config μ} {n : ℕ}

/-- Process `p` has been passed to `add_proc`, which has entered it in the running
list. -/
def World.Added (w : World μ n) (p : ℕ) : Prop :=
  p < w.ld.i ∨ w.ld.line = .addReady ∧ p = w.ld.i

/-- The running list has the processes that were added and are not finished, each
once. -/
structure Accurate (w : World μ n) : Prop where
  nodup : w.sched.runningList.proc.Nodup
  mem_iff : ∀ p, p ∈ w.sched.runningList.proc ↔ w.Added p ∧ p ∉ w.finished

/-- CPU `i` is about to report its process as finished. -/
def Finishing (cfg : Config μ) (w : World μ n) (i : Fin n) (p : ℕ) : Prop :=
  (w.cpu i).line = .head ∧ (w.cpu i).proc = some p ∧ w.pc p = (cfg.code p).length

/-- The array of the running list has no further entries. -/
def ListFull (w : World μ n) : Prop := w.sched.runningList.size = maxQueueSize

/-- A step that keeps the running list accurate: no CPU reports a process, none puts one
back unless the list is full, and the loader adds none if it is. -/
def KeepsList (cfg : Config μ) (w : World μ n) : Label n → Prop
  | .cpu i => (∀ p, ¬ Finishing cfg w i p) ∧ ((w.cpu i).line = .putRunning → ListFull w)
  | .loader => w.ld.line = .addRunning → ¬ ListFull w
  | .loaderWait => True

/-! ## What a step does to the list -/

variable (cfg) in
theorem runningList_getProc {s : Sched ℕ} (h : s.Counters) :
    (getProc cfg.prio s).2.runningList = s.runningList := by
  have hcase := getMlqProc_cases cfg.prio h.mark_lt
  rw [getProc]
  generalize getMlqProc cfg.prio s = r at hcase ⊢
  cases hcase with
  | stay _ _ => rfl
  | scan q _ _ _ _ _ => rfl
  | wrap q _ _ _ _ _ => rfl
  | null _ _ => rfl

theorem runningList_putMlqProc {s t : Sched ℕ} {p : ℕ} (h : putMlqProc cfg.prio s p = some t) :
    t.runningList = s.runningList := by
  obtain ⟨-, rfl⟩ := (putMlqProc_eq_some cfg.prio).mp h
  rfl

/-- What a step of a CPU does to the running list and to the record of finished
processes. -/
inductive ListCase (cfg : Config μ) (w v : World μ n) (i : Fin n) : Prop
  | finish (p : ℕ) (hp : Finishing cfg w i p) (hfin : v.finished = w.finished ++ [p])
      (hlist : v.sched.runningList = w.sched.runningList)
  | enlist (p : ℕ) (hline : (w.cpu i).line = .putRunning) (hp : (w.cpu i).proc = some p)
      (hfin : v.finished = w.finished)
      (hlist : v.sched.runningList = w.sched.runningList.enqueue p)
  | other (hno : ∀ p, ¬ Finishing cfg w i p) (hline : (w.cpu i).line ≠ .putRunning)
      (hfin : v.finished = w.finished) (hlist : v.sched.runningList = w.sched.runningList)

/-- **What a step of a CPU does to the list.** -/
theorem cpuStep_list {w v : World μ n} {i : Fin n} (hw : w.sched.Counters)
    (h : cpuStep cfg w i = some v) : ListCase cfg w v i := by
  have hstep := cpuStep_lines h
  rcases hcpu : w.cpu i with ⟨line, proc, t⟩
  rw [hcpu] at hstep
  have hline : (w.cpu i).line = line := by rw [hcpu]
  have hproc : (w.cpu i).proc = proc := by rw [hcpu]
  -- Every line but `head` and `putRunning` leaves list and record alone.
  have hother : line ≠ .head → line ≠ .putRunning → v.finished = w.finished →
      v.sched.runningList = w.sched.runningList → ListCase cfg w v i := by
    intro hhead hput
    exact .other (fun p hp => hhead (hline.symm.trans hp.1)) (by rwa [hline])
  -- So does `head`, if the process has not finished.
  have hkept : ∀ p, proc = some p → w.pc p ≠ (cfg.code p).length →
      ∀ q, ¬ Finishing cfg w i q := by
    rintro p rfl hpc q ⟨-, hq, hqpc⟩
    obtain rfl := Option.some.inj (hproc.symm.trans hq)
    exact hpc hqpc
  cases hstep with
  | headEmpty =>
      refine .other ?_ (by simp [hline]) rfl rfl
      rintro p ⟨-, hp, -⟩
      cases hproc.symm.trans hp
  | headFinished p _ hpc => exact .finish p ⟨hline, hproc, hpc⟩ rfl rfl
  | headOver p hpc => exact .other (hkept p rfl hpc) (by simp [hline]) rfl rfl
  | headOn p _ hpc => exact .other (hkept p rfl hpc) (by simp [hline]) rfl rfl
  | putRunning p => exact .enlist p hline hproc rfl rfl
  | load => exact hother (by simp) (by simp) rfl (runningList_getProc cfg hw)
  | reload => exact hother (by simp) (by simp) rfl (runningList_getProc cfg hw)
  | putReady p _ s hs => exact hother (by simp) (by simp) rfl (runningList_putMlqProc hs)
  | run p _ v hv =>
      obtain ⟨hsched, -, -, -, hfin⟩ := run_frame hv
      exact hother (by simp) (by simp) hfin (congrArg runningList hsched)
  | checkEmpty | check | slot | detach => exact hother (by simp) (by simp) rfl rfl

/-- The list is judged by its entries, the loader and the record. -/
theorem Accurate.congr {w v : World μ n} (h : Accurate w) (hlist :
    v.sched.runningList = w.sched.runningList) (hadded : ∀ p, v.Added p ↔ w.Added p)
    (hfin : v.finished = w.finished) : Accurate v where
  nodup := hlist ▸ h.nodup
  mem_iff p := by
    rw [hlist, hadded, hfin]
    exact h.mem_iff p

/-- What a CPU holds is in an accurate list. -/
theorem Accurate.mem_of_current {w : World μ n} (ha : Accurate w) (hw : Sound cfg w) {i : Fin n}
    {p : ℕ} (hp : (w.cpu i).current = some p) : p ∈ w.sched.runningList.proc := by
  have howned := mem_owned_of_current hp
  rw [ha.mem_iff]
  exact ⟨Or.inl (hw.owned_lt p howned), fun hfin => hw.finished_not_owned p hfin howned⟩

/-- **A step of a CPU** keeps the list accurate exactly if it neither reports a process nor
enters one. -/
theorem accurate_cpu {w v : World μ n} {i : Fin n} (hw : Sound cfg w) (ha : Accurate w)
    (h : cpuStep cfg w i = some v) : Accurate v ↔ KeepsList cfg w (.cpu i) := by
  have hld := (cpuStep_cases h).ld.1
  have hadded : ∀ p, v.Added p ↔ w.Added p := by
    intro p
    rw [World.Added, World.Added, hld]
  rw [KeepsList]
  cases cpuStep_list hw.counters h with
  | finish p hp hfin hlist =>
      refine iff_of_false ?_ fun hkeep => hkeep.1 p hp
      intro hv
      -- The process is reported, and its entry is still there.
      have hcur : (w.cpu i).current = some p := by
        rw [Cpu.current, hp.1]
        exact hp.2.1
      have hmem := ha.mem_of_current hw hcur
      rw [← hlist, hv.mem_iff, hfin] at hmem
      exact hmem.2 (List.mem_append_right _ (List.mem_singleton_self p))
  | enlist p hline hp hfin hlist =>
      have hno : ∀ q, ¬ Finishing cfg w i q := fun q hq => by cases hline.symm.trans hq.1
      by_cases hfull : ListFull w
      · rw [Queue.enqueue_of_full hfull] at hlist
        exact iff_of_true (ha.congr hlist hadded hfin) ⟨hno, fun _ => hfull⟩
      · refine iff_of_false ?_ fun hkeep => hfull (hkeep.2 hline)
        intro hv
        have hcur : (w.cpu i).current = some p := by
          rw [Cpu.current, hline]
          exact hp
        have hnodup := hv.nodup
        rw [hlist, Queue.proc_enqueue_of_room hfull, List.nodup_append] at hnodup
        exact hnodup.2.2 p (ha.mem_of_current hw hcur) p (List.mem_singleton_self p) rfl
  | other hno hline hfin hlist =>
      exact iff_of_true (ha.congr hlist hadded hfin) ⟨hno, fun hput => absurd hput hline⟩

/-- A process that is added gets its entry if the list has room for it. -/
theorem Accurate.enlist_iff {w v : World μ n} (ha : Accurate w) {i : ℕ} (hnew : ¬ w.Added i)
    (hunfinished : i ∉ w.finished)
    (hlist : v.sched.runningList = w.sched.runningList.enqueue i)
    (hadded : ∀ p, v.Added p ↔ w.Added p ∨ p = i) (hfin : v.finished = w.finished) :
    Accurate v ↔ ¬ ListFull w := by
  have hout : i ∉ w.sched.runningList.proc := fun hi => hnew ((ha.mem_iff i).mp hi).1
  constructor
  · intro hv hfull
    rw [Queue.enqueue_of_full hfull] at hlist
    apply hout
    rw [← hlist, hv.mem_iff, hadded, hfin]
    exact ⟨Or.inr rfl, hunfinished⟩
  · intro hroom
    have hproc := Queue.proc_enqueue_of_room hroom i
    constructor
    · rw [hlist, hproc, List.nodup_append]
      refine ⟨ha.nodup, List.nodup_singleton i, ?_⟩
      intro p hp q hq hpq
      obtain rfl := List.mem_singleton.mp hq
      exact hout (hpq ▸ hp)
    · intro p
      rw [hlist, hproc, List.mem_append, List.mem_singleton, ha.mem_iff, hadded, hfin, or_and_right]
      apply or_congr_right
      constructor
      · rintro rfl
        exact ⟨rfl, hunfinished⟩
      · intro hp
        exact hp.1

/-- **A step of the loader** keeps the list accurate exactly if a process that it adds finds
room. -/
theorem accurate_loader {w v : World μ n} (hw : Sound cfg w) (ha : Accurate w)
    (h : ldStep cfg w = some v) : Accurate v ↔ KeepsList cfg w .loader := by
  have hstep := ldStep_lines h
  rw [KeepsList]
  cases hline : w.ld.line with
  | addRunning =>
      rw [hline] at hstep
      cases hstep
      have hnew : ¬ w.Added w.ld.i := by
        rintro (hlt | ⟨hready, -⟩)
        · exact lt_irrefl _ hlt
        · cases hline.symm.trans hready
      have hunfinished : w.ld.i ∉ w.finished := fun hfin => lt_irrefl _ (hw.finished_lt _ hfin)
      rw [forall_prop_of_true rfl]
      apply ha.enlist_iff hnew hunfinished
      · rfl
      · intro p
        simp [World.Added, hline]
      · rfl
  | addReady =>
      rw [hline] at hstep
      cases hstep with
      | addReady s hs =>
          refine iff_of_true (ha.congr (runningList_putMlqProc hs) ?_ rfl) fun hno => by cases hno
          intro p
          simp only [World.Added, hline, true_and, reduceCtorEq, false_and, or_false]
          omega
  | head | wait | slot | detach | exited =>
      rw [hline] at hstep
      cases hstep <;>
      · refine iff_of_true (ha.congr rfl ?_ rfl) fun hno => by cases hno
        intro p
        simp [World.Added, hline]

/-- **Which steps keep the list accurate.** -/
theorem accurate_step {w v : World μ n} {l : Label n} (hw : Sound cfg w) (ha : Accurate w)
    (h : osStep cfg w l = some v) : Accurate v ↔ KeepsList cfg w l := by
  cases l with
  | cpu i => exact accurate_cpu hw ha h
  | loader => exact accurate_loader hw ha h
  | loaderWait =>
      rw [osStep_loaderWait h]
      exact iff_of_true ha trivial

theorem accurate_init (n : ℕ) (mem : μ) : Accurate (World.init n mem) where
  nodup := List.nodup_nil
  mem_iff p := by simp [World.init, initScheduler, World.Added]

/-- **When the running list is accurate**: in all states of a run exactly if no step of it
reports a process, puts one back while the list has room, or adds one while it has
none. -/
theorem running_list_accurate_iff {mem : μ} {w : World μ cfg.numCpus}
    {labels : List (Label cfg.numCpus)}
    (h : (osSystem cfg).run (World.init cfg.numCpus mem) labels = some w) :
    (∀ v ∈ (osSystem cfg).states (World.init cfg.numCpus mem) labels, Accurate v) ↔
      ∀ x ∈ (osSystem cfg).trace Prod.mk (World.init cfg.numCpus mem) labels,
        KeepsList cfg x.1 x.2 :=
  (osSystem cfg).states_iff (J := Sound cfg) (P := Accurate) (C := KeepsList cfg)
    (fun _ _ _ hw ha hstep => ⟨hw.step hstep, accurate_step hw ha hstep⟩) h
    (sound_init _ mem) (accurate_init _ mem)

theorem running_list_accurate_iff_twoCalcs :
    ∃ w, (osSystem twoCalcs).run (World.init 2 ()) twoCalcsRun = some w ∧
      ((∀ v ∈ (osSystem twoCalcs).states (World.init 2 ()) twoCalcsRun, Accurate v) ↔
        ∀ x ∈ (osSystem twoCalcs).trace Prod.mk (World.init 2 ()) twoCalcsRun,
          KeepsList twoCalcs x.1 x.2) := by
  have hrun : ((osSystem twoCalcs).run (World.init 2 ()) twoCalcsRun).isSome := by
    decide +kernel
  obtain ⟨w, hw⟩ := Option.isSome_iff_exists.mp hrun
  exact ⟨w, hw, running_list_accurate_iff hw⟩

/-- The process has finished, and is still in the running list. -/
theorem running_list_stale :
    ∃ w, (osSystem twoCalcs).Reachable w ∧ ¬ Accurate w ∧ 0 ∈ w.finished ∧
      0 ∈ w.sched.runningList.proc := by
  have hrun : (((osSystem twoCalcs).run (World.init 2 ()) twoCalcsRun).any fun w =>
      0 ∈ w.finished ∧ 0 ∈ w.sched.runningList.proc) = true := by decide +kernel
  obtain ⟨w, hw, hcase⟩ := (Option.any_eq_true _ _).mp hrun
  obtain ⟨hfin, hlist⟩ := of_decide_eq_true hcase
  refine ⟨w, ⟨World.init 2 (), twoCalcsRun, ⟨(), rfl⟩, hw⟩, ?_, hfin, hlist⟩
  intro ha
  exact ((ha.mem_iff 0).mp hlist).2 hfin

end SimOs.Os
