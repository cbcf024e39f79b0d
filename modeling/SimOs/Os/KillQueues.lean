import SimOs.Os.Killall

/-!
# The ready queues after `killall`

When `__sys_killall` takes a process out of a ready queue, it shifts the array from the
front on, where the loop over the running list shifts it from the process on.  So the
queue loses its first process, and the victim stays.  Each victim costs one process from
the front.

## Main definitions

* `ReadyFiltered`: the ready queues have lost the victims, and nothing else.
* `ready_filtered_iff`: when they have.
* `running_filtered`: the running list always has.
-/

namespace SimOs.Os

open Libmem

/-- **What a call that returns has done.** -/
theorem sysKillall_eq_some {k k' : Kernel} {caller : ℕ} {a1 : BitVec 32}
    (h : sysKillall k caller a1 = some k') :
    ∃ procName c mem, readName (k.mem.caller caller) a1.toNat = some (procName, c) ∧
      (victims k procName).length ≤ maxPrio ∧
      freeVictims (ended k.pcb (victims k procName)) (victims k procName) (k.mem.put caller c) =
        some mem ∧
      k' = { withoutVictims k procName with mem := mem } := by
  obtain ⟨⟨procName, c⟩, hname, h⟩ := Option.bind_eq_some_iff.mp h
  obtain ⟨⟨s, ps⟩, hvictims, h⟩ := Option.bind_eq_some_iff.mp h
  obtain ⟨mem, hmem, rfl⟩ := Option.map_eq_some_iff.mp h
  rw [findVictims_eq] at hvictims
  split at hvictims
  · next hroom =>
      obtain ⟨rfl, rfl⟩ := Prod.mk.inj (Option.some.inj hvictims)
      exact ⟨procName, c, mem, hname, hroom, hmem, rfl⟩
  · cases hvictims

/-- Every ready queue has its processes of other names, in their order, and every process of
the name is at the end of its program. -/
structure ReadyFiltered (k k' : Kernel) (procName : List BYTE) : Prop where
  queues : ∀ q < maxPrio, (k'.mlqReadyQueue q).proc =
    (k.mlqReadyQueue q).proc.filter fun p => !(k.pcb p).hasName procName
  pc : ∀ p ∈ victims k procName, (k'.pcb p).pc = (k'.pcb p).code.length

/-- The running list is swept from the place of the victim. -/
theorem proc_swept_self (pcb : ℕ → Pcb) (procName : List BYTE) (q : Queue ℕ) :
    (swept (fun i => i) pcb procName q).proc = q.proc.filter fun p => !named pcb procName p := by
  have hsweep := Sweep.sweep_self (named pcb procName) (n := q.size) (i := 0) (l := q.proc)
    (Nat.le_of_eq (Nat.zero_add _).symm)
  rw [List.take_zero, List.nil_append, List.drop_zero] at hsweep
  exact hsweep

/-- A ready queue is swept from the front. -/
theorem proc_swept_front (pcb : ℕ → Pcb) (procName : List BYTE) (q : Queue ℕ) :
    (swept (fun _ => 0) pcb procName q).proc =
      q.proc.drop (q.proc.countP (named pcb procName)) := by
  have hsweep := Sweep.sweep_front (named pcb procName) (n := q.size) (i := 0) (l := q.proc)
    (Nat.le_of_eq (Nat.zero_add _).symm)
  rw [List.drop_zero] at hsweep
  exact hsweep

section

variable {k k' : Kernel} {caller : ℕ} {a1 : BitVec 32} {procName : List BYTE} {c : Caller}

/-- **The running list** loses the victims, and nothing else. -/
theorem running_filtered (hname : readName (k.mem.caller caller) a1.toNat = some (procName, c))
    (h : sysKillall k caller a1 = some k') : k'.runningList.proc =
      k.runningList.proc.filter fun p => !(k.pcb p).hasName procName := by
  obtain ⟨procName', c', mem, hname', -, -, rfl⟩ := sysKillall_eq_some h
  obtain ⟨rfl, -⟩ := Prod.mk.inj (Option.some.inj (hname.symm.trans hname'))
  exact proc_swept_self k.pcb procName k.runningList

/-- **When the ready queues are right**: if in each of them the processes of the name stand
before all others. -/
theorem ready_filtered_iff
    (hname : readName (k.mem.caller caller) a1.toNat = some (procName, c))
    (h : sysKillall k caller a1 = some k') :
    ReadyFiltered k k' procName ↔ ∀ q < maxPrio, (k.mlqReadyQueue q).proc.Pairwise
      fun p p' => (k.pcb p').hasName procName → (k.pcb p).hasName procName := by
  obtain ⟨procName', c', mem, hname', -, -, rfl⟩ := sysKillall_eq_some h
  obtain ⟨rfl, -⟩ := Prod.mk.inj (Option.some.inj (hname.symm.trans hname'))
  have hqueue : ∀ q < maxPrio, ((withoutVictims k procName).mlqReadyQueue q).proc =
      (k.mlqReadyQueue q).proc.drop ((k.mlqReadyQueue q).proc.countP (named k.pcb procName)) := by
    intro q hq
    simp only [withoutVictims, if_pos hq]
    exact proc_swept_front k.pcb procName (k.mlqReadyQueue q)
  constructor
  · intro hfiltered q hq
    apply (Sweep.drop_countP_eq_filter_iff (named k.pcb procName) _).mp
    rw [← hqueue q hq]
    exact hfiltered.queues q hq
  · intro hfirst
    constructor
    · intro q hq
      exact (hqueue q hq).trans
        ((Sweep.drop_countP_eq_filter_iff (named k.pcb procName) _).mpr (hfirst q hq))
    · intro p hp
      simp only [withoutVictims, ended, if_pos hp]
      rfl

end

theorem ready_filtered_iff_first :
    ∃ k', sysKillall (smallKernel nameB [1, 2]) 0 1 = some k' ∧
      ReadyFiltered (smallKernel nameB [1, 2]) k' nameB := by
  have hread : (readName ((smallKernel nameB [1, 2]).mem.caller 0) (1 : BitVec 32).toNat).any
      fun r => r.1 = nameB := by decide +kernel
  have hrun : (sysKillall (smallKernel nameB [1, 2]) 0 1).isSome := by decide +kernel
  obtain ⟨c, hname⟩ := eq_some_of_any_fst hread
  obtain ⟨k', hk'⟩ := Option.isSome_iff_exists.mp hrun
  refine ⟨k', hk', (ready_filtered_iff hname hk').mpr ?_⟩
  decide +kernel

/-- **The wrong process is lost.**  Behind process 2, of another name, the victim 1 stays in
the queue, and process 2 is gone. -/
theorem wrong_process_lost :
    ∃ k', sysKillall (smallKernel nameB [2, 1]) 0 1 = some k' ∧
      (∃ c, readName ((smallKernel nameB [2, 1]).mem.caller 0) (1 : BitVec 32).toNat =
        some (nameB, c)) ∧ ¬ ReadyFiltered (smallKernel nameB [2, 1]) k' nameB := by
  have hread : (readName ((smallKernel nameB [2, 1]).mem.caller 0) (1 : BitVec 32).toNat).any
      fun r => r.1 = nameB := by decide +kernel
  have hrun : (sysKillall (smallKernel nameB [2, 1]) 0 1).any fun k' =>
      (k'.mlqReadyQueue 0).proc = [1] := by decide +kernel
  obtain ⟨k', hk', hqueue⟩ := (Option.any_eq_true _ _).mp hrun
  refine ⟨k', hk', eq_some_of_any_fst hread, ?_⟩
  intro hfiltered
  have hwant := hfiltered.queues 0 (by decide)
  rw [of_decide_eq_true hqueue] at hwant
  revert hwant
  decide +kernel

end SimOs.Os
