import SimOs.Os.Model
import SimOs.Sched.Conservation
import Mathlib.Data.Multiset.UnionInter

/-!
# Who owns a process

A process that was added is in a ready queue or held by a CPU, and in one place only:
`owned` collects the places, and `Sound` says that it has no duplicates.  A CPU never
adds to `owned`.  It hands a process over, gives it up when it has finished, or
loses it to a full queue; only the loader adds, and only a new process.  A process
whose `pc` a CPU moves is the one it holds, so every instruction is executed once and
in order.

## Main definitions

* `World.owned`: the processes in all ready queues and on all CPUs.
* `CpuCase`: the possible effects of a CPU's step.
* `Sound`: the invariant.
* `exclusive_ownership`: what it means for every reachable state.
-/

namespace SimOs.Os

open SimOs.Sched World

universe u
variable {μ : Type u} {cfg : Config μ} {n : ℕ}

/-- The processes all CPUs hold. -/
def World.current (w : World μ n) : Multiset ℕ :=
  ∑ i, ((w.cpu i).current.toList : Multiset ℕ)

/-- The processes in all ready queues and on all CPUs. -/
def World.owned (w : World μ n) : Multiset ℕ := w.sched.ready + w.current

/-- A CPU that has decided to put its process back. -/
def CpuLine.Putting (l : CpuLine) : Prop := l = .putRunning ∨ l = .putReady

/-- The possible effects of a CPU's step. -/
inductive CpuCase (cfg : Config μ) (w : World μ n) (i : Fin n) : World μ n → Prop
  /-- The CPU moves on and keeps what it holds. -/
  | goto (c : Cpu) (hcur : c.current = (w.cpu i).current)
      (hput : c.line.Putting → ∃ p, (w.cpu i).proc = some p ∧ c.proc = some p ∧
        w.pc p ≠ (cfg.code p).length) :
      CpuCase cfg w i (w.setCpu i c)
  /-- Its process is complete and is given up. -/
  | finish (p : ℕ) (t : ℤ) (hcur : (w.cpu i).current = some p)
      (hpc : w.pc p = (cfg.code p).length) :
      CpuCase cfg w i ((w.report p).setCpu i ⟨.reload, some p, t⟩)
  /-- It enters its process in the running list. -/
  | enlist (p : ℕ) (t : ℤ) (hcpu : w.cpu i = ⟨.putRunning, some p, t⟩) :
      CpuCase cfg w i
        ((w.setSched (w.sched.enlistRunning p)).setCpu i ⟨.putReady, some p, t⟩)
  /-- It hands its process over to a ready queue. -/
  | put (p : ℕ) (t : ℤ) (s : Sched ℕ) (hcpu : w.cpu i = ⟨.putReady, some p, t⟩)
      (hs : putMlqProc cfg.prio w.sched p = some s) :
      CpuCase cfg w i ((w.setSched s).setCpu i ⟨.reload, some p, t⟩)
  /-- It takes over what the scheduler returns. -/
  | get (c : Cpu) (hcur : (w.cpu i).current = none)
      (hproc : c.current = (getProc cfg.prio w.sched).1) (hput : ¬ c.line.Putting) :
      CpuCase cfg w i ((w.setSched (getProc cfg.prio w.sched).2).setCpu i c)
  /-- It executes the next instruction of its process, if there is one. -/
  | run (p : ℕ) (c : Cpu) (v : World μ n) (hcur : (w.cpu i).current = some p)
      (hc : c.current = some p) (hput : ¬ c.line.Putting) (hv : run cfg w p = some v) :
      CpuCase cfg w i (v.setCpu i c)

/-- **What a step of a CPU can do.** -/
theorem cpuStep_cases {w v : World μ n} {i : Fin n} (h : cpuStep cfg w i = some v) :
    CpuCase cfg w i v := by
  have hline := cpuStep_lines h
  rcases hcpu : w.cpu i with ⟨line, proc, t⟩
  rw [hcpu] at hline
  have hcur : (w.cpu i).current = Cpu.current ⟨line, proc, t⟩ := by rw [hcpu]
  cases hline with
  | headEmpty => exact .goto _ hcur.symm (by rintro (h | h) <;> cases h)
  | headFinished p _ hpc => exact .finish p 0 hcur hpc
  | headOver p hpc => exact .goto _ hcur.symm fun _ => ⟨p, by rw [hcpu], rfl, hpc⟩
  | headOn => exact .goto _ hcur.symm (by rintro (h | h) <;> cases h)
  | load =>
      refine .get _ hcur ?_ ?_
      · cases hr : (getProc cfg.prio w.sched).1 <;> rfl
      · cases hr : (getProc cfg.prio w.sched).1 <;> (rintro (h | h) <;> cases h)
  | putRunning p => exact .enlist p t hcpu
  | putReady p _ s hs => exact .put p t s hcpu hs
  | reload => exact .get _ hcur rfl (by rintro (h | h) <;> cases h)
  | checkEmpty =>
      refine .goto _ (hcur.symm ▸ ?_) ?_
      · cases w.done <;> rfl
      · cases w.done <;> (rintro (h | h) <;> cases h)
  | check => exact .goto _ hcur.symm (by rintro (h | h) <;> cases h)
  | run p _ v hv => exact .run p _ v hcur rfl (by rintro (h | h) <;> cases h) hv
  | slot => exact .goto _ hcur.symm (by rintro (h | h) <;> cases h)
  | detach => exact .goto _ hcur.symm (by rintro (h | h) <;> cases h)

/-! ## What a step does to the places -/

@[simp] theorem current_setSched (w : World μ n) (s : Sched ℕ) :
    (w.setSched s).current = w.current := rfl
@[simp] theorem current_report (w : World μ n) (p : ℕ) : (w.report p).current = w.current := rfl

/-- `owned` looks at the ready queues and at what the CPUs hold. -/
theorem owned_congr {w v : World μ n} (hready : v.sched.ready = w.sched.ready)
    (hcur : v.current = w.current) : v.owned = w.owned := by
  rw [World.owned, World.owned, hready, hcur]

/-- A new local state of CPU `i` exchanges what that CPU holds. -/
theorem current_setCpu (w : World μ n) (i : Fin n) (c : Cpu) :
    (w.setCpu i c).current + (w.cpu i).current.toList = w.current + c.current.toList :=
  sum_update_add (Finset.mem_univ i) (fun c : Cpu => (c.current.toList : Multiset ℕ)) w.cpu c

theorem current_setCpu_of_eq {w : World μ n} {i : Fin n} {c : Cpu}
    (h : c.current = (w.cpu i).current) : (w.setCpu i c).current = w.current := by
  have hupdate := current_setCpu w i c
  rw [h] at hupdate
  exact add_right_cancel hupdate

/-- A CPU that gives its process away. -/
theorem current_setCpu_none {w : World μ n} {i : Fin n} {c : Cpu} {p : ℕ}
    (h : (w.cpu i).current = some p) (hc : c.current = none) :
    w.current = p ::ₘ (w.setCpu i c).current := by
  have hupdate := current_setCpu w i c
  rw [h, hc, Option.toList_some, Option.toList_none, Multiset.coe_singleton, Multiset.coe_nil,
    add_zero, add_comm, Multiset.singleton_add] at hupdate
  exact hupdate.symm

/-- A CPU that held nothing and takes over what `o` holds. -/
theorem current_setCpu_some {w : World μ n} {i : Fin n} {c : Cpu} {o : Option ℕ}
    (h : (w.cpu i).current = none) (hc : c.current = o) :
    (w.setCpu i c).current = o.toList + w.current := by
  have hupdate := current_setCpu w i c
  rwa [h, hc, Option.toList_none, Multiset.coe_nil, add_zero, add_comm w.current] at hupdate

/-- What `run` does: nothing, or the next instruction. -/
theorem run_cases {w v : World μ n} {p : ℕ} (h : run cfg w p = some v) :
    (v = w ∧ (cfg.code p).length ≤ w.pc p) ∨ ∃ ins mem, (cfg.code p)[w.pc p]? = some ins ∧
      v = { w with
        pc := Function.update w.pc p (w.pc p + 1)
        mem := mem
        executed := Function.update w.executed p (w.executed p ++ [ins]) } := by
  rw [run] at h
  split at h
  · next hnone =>
      obtain rfl := Option.some.inj h
      exact Or.inl ⟨rfl, List.getElem?_eq_none_iff.mp hnone⟩
  · next ins hins =>
      split at h
      · cases h
      · obtain ⟨mem, -, rfl⟩ := Option.map_eq_some_iff.mp h
        exact Or.inr ⟨ins, mem, hins, rfl⟩

theorem run_frame {w v : World μ n} {p : ℕ} (h : run cfg w p = some v) :
    v.sched = w.sched ∧ v.cpu = w.cpu ∧ v.ld = w.ld ∧ v.done = w.done ∧
      v.finished = w.finished := by
  rcases run_cases h with ⟨rfl, -⟩ | ⟨ins, mem, -, rfl⟩
  · exact ⟨rfl, rfl, rfl, rfl, rfl⟩
  · exact ⟨rfl, rfl, rfl, rfl, rfl⟩

/-- `put_mlq_proc` and `add_mlq_proc` enter at most the process they are given. -/
theorem ready_putMlqProc_le {prio : ℕ → ℕ} {s t : Sched ℕ} {p : ℕ}
    (h : putMlqProc prio s p = some t) : t.ready ≤ p ::ₘ s.ready := by
  rw [ready_putMlqProc h]
  split
  · rw [zero_add]
    exact Multiset.le_cons_self _ _
  · rw [Multiset.singleton_add]

/-- **A CPU never adds** to what is owned. -/
theorem CpuCase.owned_le {w v : World μ n} {i : Fin n} (hs : w.sched.Counters)
    (h : CpuCase cfg w i v) : v.owned ≤ w.owned := by
  cases h with
  | goto c hcur _ => exact (owned_congr (by simp) (current_setCpu_of_eq hcur)).le
  | finish p t hcur _ =>
      have hgive := current_setCpu_none (w := w.report p) (c := ⟨.reload, some p, t⟩) hcur rfl
      rw [current_report] at hgive
      rw [World.owned, World.owned, hgive]
      exact add_le_add_right (Multiset.le_cons_self _ _) _
  | enlist p t hcpu =>
      refine (owned_congr (by simp) ?_).le
      rw [current_setCpu_of_eq (by rw [cpu_setSched, hcpu]; rfl), current_setSched]
  | put p t s hcpu hput =>
      have hcur : (w.cpu i).current = some p := by rw [hcpu]; rfl
      have hgive := current_setCpu_none (w := w.setSched s) (c := ⟨.reload, some p, t⟩) hcur rfl
      rw [current_setSched] at hgive
      rw [World.owned, World.owned, hgive, Multiset.add_cons, ← Multiset.cons_add]
      exact add_le_add_left (ready_putMlqProc_le hput) _
  | get c hcur hproc _ =>
      have htake := current_setCpu_some (w := w.setSched (getProc cfg.prio w.sched).2) hcur hproc
      have hready := ready_getMlqProc cfg.prio hs
      refine le_of_eq ?_
      rw [World.owned, World.owned, htake, hready, sched_setCpu, sched_setSched, current_setSched]
      simp only [getProc]
      abel
  | run p c v hcur hc _ hv =>
      obtain ⟨hsched, hcpu, -⟩ := run_frame hv
      refine (owned_congr (by rw [sched_setCpu, hsched]) ?_).le
      rw [current_setCpu_of_eq (by rw [hcpu, hc, hcur]), World.current, World.current, hcpu]

/-- A complete process leaves the places for good. -/
theorem owned_finish {w : World μ n} {i : Fin n} {p : ℕ} {t : ℤ}
    (hcur : (w.cpu i).current = some p) :
    w.owned = p ::ₘ ((w.report p).setCpu i ⟨.reload, some p, t⟩).owned := by
  have hgive := current_setCpu_none (w := w.report p) (c := ⟨.reload, some p, t⟩) hcur rfl
  rw [current_report] at hgive
  rw [World.owned, World.owned, hgive, Multiset.add_cons]
  rfl

theorem mem_owned_of_current {w : World μ n} {i : Fin n} {p : ℕ}
    (h : (w.cpu i).current = some p) : p ∈ w.owned := by
  refine Multiset.mem_add.mpr (Or.inr (Multiset.mem_sum.mpr ⟨i, Finset.mem_univ i, ?_⟩))
  rw [h]
  simp

/-- No process is on two CPUs. -/
theorem current_injective {w : World μ n} (h : w.owned.Nodup) {i j : Fin n} {p : ℕ}
    (hi : (w.cpu i).current = some p) (hj : (w.cpu j).current = some p) : i = j := by
  by_contra hne
  have hnodup : w.current.Nodup := (Multiset.nodup_add.mp h).2.1
  rw [World.current, ← Finset.add_sum_erase _ _ (Finset.mem_univ i), hi] at hnodup
  refine (Multiset.nodup_cons.mp hnodup).1 ?_
  exact Multiset.mem_sum.mpr
    ⟨j, Finset.mem_erase.mpr ⟨Ne.symm hne, Finset.mem_univ j⟩, by rw [hj]; simp⟩

/-! ## What else a step of a CPU leaves alone -/

theorem CpuCase.counters {w v : World μ n} {i : Fin n} (hs : w.sched.Counters)
    (h : CpuCase cfg w i v) : v.sched.Counters := by
  cases h with
  | goto c _ _ => exact hs
  | finish p t _ _ => exact hs
  | enlist p t _ => exact hs.congr rfl rfl rfl rfl
  | put p t s _ hput =>
      obtain ⟨hf, hm, hc, hsl⟩ := putMlqProc_counters hput
      exact hs.congr hf hm hc hsl
  | get c _ _ _ => exact Or.inr hs.started_getMlqProc
  | run p c v _ _ _ hv =>
      rw [sched_setCpu, (run_frame hv).1]
      exact hs

theorem CpuCase.ld {w v : World μ n} {i : Fin n} (h : CpuCase cfg w i v) :
    v.ld = w.ld ∧ v.done = w.done := by
  cases h with
  | goto c _ _ => exact ⟨rfl, rfl⟩
  | finish p t _ _ => exact ⟨rfl, rfl⟩
  | enlist p t _ => exact ⟨rfl, rfl⟩
  | put p t s _ _ => exact ⟨rfl, rfl⟩
  | get c _ _ _ => exact ⟨rfl, rfl⟩
  | run p c v _ _ _ hv =>
      obtain ⟨-, -, hld, hdone, -⟩ := run_frame hv
      exact ⟨hld, hdone⟩

/-- The other CPUs. -/
theorem CpuCase.cpu_of_ne {w v : World μ n} {i j : Fin n} (h : CpuCase cfg w i v) (hj : j ≠ i) :
    v.cpu j = w.cpu j := by
  cases h with
  | goto c _ _ => exact cpu_setCpu_of_ne w hj c
  | finish p t _ _ => exact cpu_setCpu_of_ne _ hj _
  | enlist p t _ => exact cpu_setCpu_of_ne _ hj _
  | put p t s _ _ => exact cpu_setCpu_of_ne _ hj _
  | get c _ _ _ => exact cpu_setCpu_of_ne _ hj c
  | run p c v _ _ _ hv => rw [cpu_setCpu_of_ne _ hj, (run_frame hv).2.1]

/-- A CPU's local state is changed by its own steps only. -/
theorem osStep_cpu_of_ne {w v : World μ n} {l : Label n} {i : Fin n} (hl : l ≠ .cpu i)
    (h : osStep cfg w l = some v) : v.cpu i = w.cpu i := by
  cases l with
  | cpu j => exact (cpuStep_cases h).cpu_of_ne fun hij => hl (hij ▸ rfl)
  | loader =>
      have hstep := ldStep_lines h
      generalize w.ld.line = line at hstep
      cases hstep <;> rfl
  | loaderWait => rw [osStep_loaderWait h]

/-- A report is of the process the CPU held, which it gives up. -/
theorem CpuCase.finished {w v : World μ n} {i : Fin n} (h : CpuCase cfg w i v) :
    v.finished = w.finished ∨ ∃ p, v.finished = w.finished ++ [p] ∧
      w.owned = p ::ₘ v.owned ∧ v.pc = w.pc ∧ w.pc p = (cfg.code p).length := by
  cases h with
  | goto c _ _ => exact Or.inl rfl
  | finish p t hcur hpc => exact Or.inr ⟨p, rfl, owned_finish hcur, rfl, hpc⟩
  | enlist p t _ => exact Or.inl rfl
  | put p t s _ _ => exact Or.inl rfl
  | get c _ _ _ => exact Or.inl rfl
  | run p c v _ _ _ hv => exact Or.inl (run_frame hv).2.2.2.2

/-- The only `pc` that moves is that of the process the CPU holds, by the instruction it
points to. -/
theorem CpuCase.pc {w v : World μ n} {i : Fin n} (h : CpuCase cfg w i v) :
    (v.pc = w.pc ∧ v.executed = w.executed) ∨
    ∃ p ins, (w.cpu i).current = some p ∧ (cfg.code p)[w.pc p]? = some ins ∧
      v.pc = Function.update w.pc p (w.pc p + 1) ∧
      v.executed = Function.update w.executed p (w.executed p ++ [ins]) ∧
      ¬ (v.cpu i).line.Putting := by
  cases h with
  | goto c _ _ => exact Or.inl ⟨rfl, rfl⟩
  | finish p t _ _ => exact Or.inl ⟨rfl, rfl⟩
  | enlist p t _ => exact Or.inl ⟨rfl, rfl⟩
  | put p t s _ _ => exact Or.inl ⟨rfl, rfl⟩
  | get c _ _ _ => exact Or.inl ⟨rfl, rfl⟩
  | run p c v hcur _ hput hv =>
      rcases run_cases hv with ⟨rfl, -⟩ | ⟨ins, mem, hins, rfl⟩
      · exact Or.inl ⟨rfl, rfl⟩
      · refine Or.inr ⟨p, ins, hcur, hins, rfl, rfl, ?_⟩
        rwa [cpu_setCpu_self]

/-- A CPU decides to put its process back only while instructions remain. -/
theorem CpuCase.putting {w v : World μ n} {i : Fin n} (h : CpuCase cfg w i v)
    (hput : (v.cpu i).line.Putting) {p : ℕ} (hp : (v.cpu i).proc = some p) :
    (w.pc p ≠ (cfg.code p).length) ∨ (w.cpu i).line.Putting ∧ (w.cpu i).proc = some p := by
  cases h with
  | goto c _ hwhy =>
      rw [cpu_setCpu_self] at hput hp
      obtain ⟨q, -, hq, hpc⟩ := hwhy hput
      obtain rfl : q = p := Option.some.inj (hq.symm.trans hp)
      exact Or.inl hpc
  | finish q t _ _ =>
      rw [cpu_setCpu_self] at hput
      rcases hput with h | h <;> cases h
  | enlist q t hcpu =>
      rw [cpu_setCpu_self] at hp
      rw [hcpu]
      exact Or.inr ⟨Or.inl rfl, hp⟩
  | put q t s _ _ =>
      rw [cpu_setCpu_self] at hput
      rcases hput with h | h <;> cases h
  | get c _ _ hno => exact absurd (by rwa [cpu_setCpu_self] at hput) hno
  | run q c v _ _ hno _ => exact absurd (by rwa [cpu_setCpu_self] at hput) hno

/-! ## The invariant -/

/-- The invariant of the whole system. -/
structure Sound (cfg : Config μ) (w : World μ n) : Prop where
  counters : w.sched.Counters
  /-- Every process is in one place at most. -/
  nodup : w.owned.Nodup
  /-- What is owned or finished has passed the loader. -/
  owned_lt : ∀ p ∈ w.owned, p < w.ld.i
  finished_lt : ∀ p ∈ w.finished, p < w.ld.i
  /-- What is finished is gone, and was finished once. -/
  finished_not_owned : ∀ p ∈ w.finished, p ∉ w.owned
  finished_nodup : w.finished.Nodup
  complete : ∀ p ∈ w.finished, w.pc p = (cfg.code p).length
  /-- The record of a process is the part of its code before `pc`. -/
  pc_le : ∀ p, w.pc p ≤ (cfg.code p).length
  executed : ∀ p, w.executed p = (cfg.code p).take (w.pc p)
  /-- A process about to be put back is not complete. -/
  putting : ∀ i p, (w.cpu i).line.Putting → (w.cpu i).proc = some p →
    w.pc p ≠ (cfg.code p).length

theorem sound_init (n : ℕ) (mem : μ) : Sound cfg (World.init n mem) where
  counters := Or.inl fresh_initScheduler
  nodup := by
    simp [World.owned, World.current, World.init, Sched.ready, initScheduler, Cpu.current]
  owned_lt p hp := by
    simp [World.owned, World.current, World.init, Sched.ready, initScheduler, Cpu.current] at hp
  finished_lt p hp := absurd hp List.not_mem_nil
  finished_not_owned p hp := absurd hp List.not_mem_nil
  finished_nodup := List.nodup_nil
  complete p hp := absurd hp List.not_mem_nil
  pc_le p := Nat.zero_le _
  executed p := rfl
  putting i p h := by rcases h with h | h <;> cases h

/-- A step of a CPU keeps every `pc` within its code and the record in step with it. -/
theorem Sound.executed_cpu {w v : World μ n} {i : Fin n} (hw : Sound cfg w)
    (h : CpuCase cfg w i v) (q : ℕ) :
    v.pc q ≤ (cfg.code q).length ∧ v.executed q = (cfg.code q).take (v.pc q) := by
  rcases h.pc with ⟨hpc, hex⟩ | ⟨p, ins, -, hins, hpc, hex, -⟩
  · rw [hpc, hex]
    exact ⟨hw.pc_le q, hw.executed q⟩
  · rw [hpc, hex]
    rcases eq_or_ne q p with rfl | hne
    · have hlt : w.pc q < (cfg.code q).length := (List.getElem?_eq_some_iff.mp hins).1
      rw [Function.update_self, Function.update_self, hw.executed q, List.take_add_one, hins]
      exact ⟨hlt, rfl⟩
    · rw [Function.update_of_ne hne, Function.update_of_ne hne]
      exact ⟨hw.pc_le q, hw.executed q⟩

/-- A step of a CPU does not move the `pc` of a process that this CPU does not hold. -/
theorem CpuCase.pc_of_ne {w v : World μ n} {i : Fin n} (h : CpuCase cfg w i v) {q : ℕ}
    (hq : (w.cpu i).current ≠ some q) : v.pc q = w.pc q := by
  rcases h.pc with ⟨hpc, -⟩ | ⟨p, ins, hcur, -, hpc, -, -⟩
  · rw [hpc]
  · rw [hpc]
    exact Function.update_of_ne (fun he => hq (hcur.trans (congrArg some he.symm))) _ _

theorem CpuLine.Putting.current {c : Cpu} (h : c.line.Putting) : c.current = c.proc := by
  rcases h with h | h <;> rw [Cpu.current, h]

theorem Sound.putting_cpu {w v : World μ n} {i : Fin n} (hw : Sound cfg w)
    (h : CpuCase cfg w i v) (j : Fin n) (p : ℕ) (hput : (v.cpu j).line.Putting)
    (hp : (v.cpu j).proc = some p) : v.pc p ≠ (cfg.code p).length := by
  rcases eq_or_ne j i with rfl | hne
  · have hpc : w.pc p ≠ (cfg.code p).length := by
      rcases h.putting hput hp with hpc | ⟨hput', hp'⟩
      · exact hpc
      · exact hw.putting j p hput' hp'
    rcases h.pc with ⟨heq, -⟩ | ⟨q, ins, -, -, -, -, hno⟩
    · rwa [heq]
    · exact absurd hput hno
  · rw [h.cpu_of_ne hne] at hput hp
    have hcur : (w.cpu j).current = some p := hput.current.trans hp
    rw [h.pc_of_ne fun hi => hne (current_injective hw.nodup hcur hi)]
    exact hw.putting j p hput hp

/-- **One step of a CPU** keeps the invariant. -/
theorem Sound.cpu {w v : World μ n} {i : Fin n} (hw : Sound cfg w)
    (h : CpuCase cfg w i v) : Sound cfg v := by
  have hle := h.owned_le hw.counters
  obtain ⟨hld, -⟩ := h.ld
  have hcomplete : ∀ p ∈ w.finished, v.pc p = (cfg.code p).length := by
    intro p hp
    rw [h.pc_of_ne fun hcur => hw.finished_not_owned p hp (mem_owned_of_current hcur)]
    exact hw.complete p hp
  have hfin : (∀ p ∈ v.finished, p < v.ld.i) ∧ (∀ p ∈ v.finished, p ∉ v.owned) ∧
      v.finished.Nodup ∧ ∀ p ∈ v.finished, v.pc p = (cfg.code p).length := by
    rw [hld]
    rcases h.finished with hfin | ⟨p, hfin, howned, hpc, hp⟩
    · rw [hfin]
      refine ⟨hw.finished_lt, ?_, hw.finished_nodup, hcomplete⟩
      intro p hp hmem
      exact hw.finished_not_owned p hp (Multiset.mem_of_le hle hmem)
    · have hmem : p ∈ w.owned := howned ▸ Multiset.mem_cons_self p v.owned
      have hnodup := hw.nodup
      rw [howned, Multiset.nodup_cons] at hnodup
      have hnew : p ∉ w.finished := fun hold => hw.finished_not_owned p hold hmem
      have hcases : ∀ q ∈ v.finished, q ∈ w.finished ∨ q = p := by
        intro q hq
        rw [hfin] at hq
        simpa using hq
      refine ⟨?_, ?_, ?_, ?_⟩
      · intro q hq
        rcases hcases q hq with hq | rfl
        · exact hw.finished_lt q hq
        · exact hw.owned_lt q hmem
      · intro q hq hin
        rcases hcases q hq with hq | rfl
        · exact hw.finished_not_owned q hq (Multiset.mem_of_le hle hin)
        · exact hnodup.1 hin
      · rw [hfin, List.nodup_append]
        refine ⟨hw.finished_nodup, by simp, ?_⟩
        intro a ha b hb
        obtain rfl : b = p := by simpa using hb
        rintro rfl
        exact hnew ha
      · intro q hq
        rcases hcases q hq with hq | rfl
        · exact hcomplete q hq
        · rw [hpc, hp]
  exact
    { counters := h.counters hw.counters
      nodup := Multiset.nodup_of_le hle hw.nodup
      owned_lt := fun p hp => hld ▸ hw.owned_lt p (Multiset.mem_of_le hle hp)
      finished_lt := hfin.1
      finished_not_owned := hfin.2.1
      finished_nodup := hfin.2.2.1
      complete := hfin.2.2.2
      pc_le := fun q => (hw.executed_cpu h q).1
      executed := fun q => (hw.executed_cpu h q).2
      putting := hw.putting_cpu h }

/-- The loader's steps other than adding a process. -/
theorem Sound.of_ld {w : World μ n} (hw : Sound cfg w) (s : Sched ℕ) (l : LdLine) (d : Bool)
    (hs : s.Counters) (hready : s.ready = w.sched.ready) :
    Sound cfg { w with sched := s, ld := ⟨l, w.ld.i⟩, done := d } := by
  have howned : World.owned { w with sched := s, ld := ⟨l, w.ld.i⟩, done := d } = w.owned :=
    owned_congr hready rfl
  exact
    { counters := hs
      nodup := howned ▸ hw.nodup
      owned_lt := howned ▸ hw.owned_lt
      finished_lt := hw.finished_lt
      finished_not_owned := howned ▸ hw.finished_not_owned
      finished_nodup := hw.finished_nodup
      complete := hw.complete
      pc_le := hw.pc_le
      executed := hw.executed
      putting := hw.putting }

/-- The loader adds a process that nobody has seen. -/
theorem Sound.add {w : World μ n} (hw : Sound cfg w) {s : Sched ℕ} (l : LdLine)
    (hs : addMlqProc cfg.prio w.sched w.ld.i = some s) :
    Sound cfg { w with sched := s, ld := ⟨l, w.ld.i + 1⟩ } := by
  have hle : World.owned { w with sched := s, ld := ⟨l, w.ld.i + 1⟩ } ≤ w.ld.i ::ₘ w.owned := by
    rw [World.owned, World.owned, ← Multiset.cons_add]
    exact add_le_add_left (ready_putMlqProc_le hs) _
  have hnew : w.ld.i ∉ w.owned := fun h => lt_irrefl _ (hw.owned_lt _ h)
  have hmem : ∀ p ∈ World.owned { w with sched := s, ld := ⟨l, w.ld.i + 1⟩ },
      p = w.ld.i ∨ p ∈ w.owned :=
    fun p hp => Multiset.mem_cons.mp (Multiset.mem_of_le hle hp)
  obtain ⟨hf, hm, hc, hsl⟩ := putMlqProc_counters (s := w.sched) hs
  exact
    { counters := hw.counters.congr hf hm hc hsl
      nodup := Multiset.nodup_of_le hle (Multiset.nodup_cons.mpr ⟨hnew, hw.nodup⟩)
      owned_lt := fun p hp => by
        rcases hmem p hp with rfl | hp
        · exact Nat.lt_succ_self _
        · exact Nat.lt_succ_of_lt (hw.owned_lt p hp)
      finished_lt := fun p hp => Nat.lt_succ_of_lt (hw.finished_lt p hp)
      finished_not_owned := fun p hp hin => by
        rcases hmem p hin with rfl | hin
        · exact lt_irrefl _ (hw.finished_lt _ hp)
        · exact hw.finished_not_owned p hp hin
      finished_nodup := hw.finished_nodup
      complete := hw.complete
      pc_le := hw.pc_le
      executed := hw.executed
      putting := hw.putting }

/-- **One step of the loader** keeps the invariant. -/
theorem Sound.ld {w v : World μ n} (hw : Sound cfg w) (h : ldStep cfg w = some v) :
    Sound cfg v := by
  have hstep := ldStep_lines h
  generalize w.ld.line = line at hstep
  cases hstep with
  | next => exact hw.of_ld w.sched .wait w.done hw.counters rfl
  | done => exact hw.of_ld w.sched .detach true hw.counters rfl
  | wait => exact hw.of_ld w.sched .addRunning w.done hw.counters rfl
  | addRunning =>
      exact hw.of_ld _ .addReady w.done (hw.counters.congr rfl rfl rfl rfl)
        (ready_enlistRunning _ _)
  | addReady s hs => exact hw.add .slot hs
  | slot => exact hw.of_ld w.sched .head w.done hw.counters rfl
  | detach => exact hw.of_ld w.sched .exited w.done hw.counters rfl

/-- **One step of the system** keeps the invariant. -/
theorem Sound.step {w v : World μ n} {l : Label n} (hw : Sound cfg w)
    (h : osStep cfg w l = some v) : Sound cfg v := by
  cases l with
  | cpu i => exact hw.cpu (cpuStep_cases h)
  | loader => exact hw.ld h
  | loaderWait =>
      rw [osStep_loaderWait h]
      exact hw

theorem reachable_sound {w : World μ cfg.numCpus} (h : (osSystem cfg).Reachable w) :
    Sound cfg w :=
  h.invariant (P := Sound cfg) (by rintro w ⟨mem, rfl⟩; exact sound_init _ mem)
    (fun _ _ _ hw hv => hw.step hv)

/-- **Exclusive ownership and in-order execution**: in every reachable state no process
occurs twice among the ready queues and the CPUs, no finished process occurs there, and
what a process has executed is its code up to `pc`, all of it once it is finished. -/
theorem exclusive_ownership {w : World μ cfg.numCpus} (h : (osSystem cfg).Reachable w) :
    w.owned.Nodup ∧ (∀ p ∈ w.finished, p ∉ w.owned) ∧
      (∀ p, w.pc p ≤ (cfg.code p).length ∧ w.executed p = (cfg.code p).take (w.pc p)) ∧
      ∀ p ∈ w.finished, w.executed p = cfg.code p := by
  have hw := reachable_sound h
  refine ⟨hw.nodup, hw.finished_not_owned, fun p => ⟨hw.pc_le p, hw.executed p⟩, ?_⟩
  intro p hp
  rw [hw.executed p, hw.complete p hp, List.take_length]

/-- Two CPUs and one process of two instructions. -/
abbrev twoCalcs : Config Unit where
  timeSlot := 1
  numCpus := 2
  ldProcesses := [⟨0, List.replicate 2 ⟨.calc, 0, 0, 0, 0⟩⟩]
  exec _ _ _ := some ()

/-- The process is loaded, executes its first instruction on CPU 1, is put back, and
executes the second one on CPU 0, which reports it. -/
def twoCalcsRun : List (Label 2) :=
  List.replicate 4 .loader ++ List.replicate 11 (.cpu 1) ++ List.replicate 6 (.cpu 0)

theorem exclusive_ownership_twoCalcs :
    ∃ w, (osSystem twoCalcs).run (World.init 2 ()) twoCalcsRun = some w ∧ w.finished = [0] ∧
      w.owned.Nodup ∧ (∀ p ∈ w.finished, p ∉ w.owned) ∧
      (∀ p, w.pc p ≤ (twoCalcs.code p).length ∧
        w.executed p = (twoCalcs.code p).take (w.pc p)) ∧
      ∀ p ∈ w.finished, w.executed p = twoCalcs.code p := by
  have hrun : (((osSystem twoCalcs).run (World.init 2 ()) twoCalcsRun).any fun w =>
      w.finished = [0]) = true := by decide +kernel
  obtain ⟨w, hw, hfinished⟩ := (Option.any_eq_true _ _).mp hrun
  exact ⟨w, hw, of_decide_eq_true hfinished,
    exclusive_ownership ⟨World.init 2 (), twoCalcsRun, ⟨(), rfl⟩, hw⟩⟩

end SimOs.Os
