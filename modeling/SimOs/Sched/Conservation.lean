import SimOs.Lib.Store
import SimOs.Sched.Quota
import Mathlib.Algebra.BigOperators.Intervals
import Mathlib.Data.Multiset.AddSub
import Mathlib.Tactic.Abel

/-!
# Where the processes are

A process that was added waits in a ready queue, is checked out by a `get_proc`, or
was refused: `enqueue` ignores a process that meets a full array, and nobody is told.
`reachable_conservation` accounts for all three, so what the scheduler loses is
exactly what entered a full queue.

## Main definitions

* `ready`: the processes in the ready queues.
* `Accounts`, `clientSystem`: the scheduler together with what its clients know.
* `reachable_conservation`: nothing else is lost and nothing is duplicated.
-/

namespace SimOs.Sched

universe u
variable {α : Type u} {prio : α → ℕ}

/-- The processes in the ready queues. -/
def ready (s : Sched α) : Multiset α :=
  ∑ q ∈ Finset.range maxPrio, ((s.mlqReadyQueue q).proc : Multiset α)

/-- Replacing queue `q` exchanges its processes. -/
theorem ready_update {s t : Sched α} {q : ℕ} (hq : q < maxPrio) (queue : Queue α)
    (ht : t.mlqReadyQueue = Function.update s.mlqReadyQueue q queue) :
    t.ready + (s.mlqReadyQueue q).proc = s.ready + queue.proc := by
  rw [ready, ready, ht]
  exact sum_update_add (Finset.mem_range.mpr hq) (fun r : Queue α => (r.proc : Multiset α)) _ _

theorem ready_congr {s t : Sched α} (h : t.mlqReadyQueue = s.mlqReadyQueue) :
    t.ready = s.ready := by
  rw [ready, ready, h]

@[simp] theorem ready_enlistRunning (s : Sched α) (p : α) :
    (s.enlistRunning p).ready = s.ready := rfl

-- The order of multisets computes, and must not sum up 140 queues to do so.
attribute [irreducible] ready

variable (prio) in
/-- A dequeue moves one process out of the ready queues. -/
theorem ready_takeFrom {s t : Sched α} {q : ℕ} (hq : q < maxPrio)
    (hne : (s.mlqReadyQueue q).size ≠ 0)
    (ht : t.mlqReadyQueue = (s.takeFrom prio q).2.mlqReadyQueue) :
    ∃ p, (s.takeFrom prio q).1 = some p ∧ s.ready = p ::ₘ t.ready := by
  obtain ⟨p, hp⟩ := Queue.dequeue_isSome prio hne
  refine ⟨p, hp, ?_⟩
  have hperm : ((s.mlqReadyQueue q).proc : Multiset α) =
      p ::ₘ (((s.mlqReadyQueue q).dequeue prio).2.proc : Multiset α) :=
    Multiset.coe_eq_coe.mpr (Queue.dequeue_perm hp)
  have hupdate := ready_update hq _ ht
  rw [hperm, Multiset.add_cons, ← Multiset.cons_add] at hupdate
  exact (add_right_cancel hupdate).symm

variable (prio) in
/-- **`get_mlq_proc` takes** from the ready queues what it returns, and nothing else. -/
theorem ready_getMlqProc {s : Sched α} (h : s.Counters) :
    s.ready = (getMlqProc prio s).1.toList + (getMlqProc prio s).2.ready := by
  have hcase := getMlqProc_cases prio h.mark_lt
  generalize getMlqProc prio s = r at hcase ⊢
  have hserve : ∀ {u : Sched α} {q : ℕ}, u.mlqReadyQueue = s.mlqReadyQueue → q < maxPrio →
      (u.mlqReadyQueue q).size ≠ 0 → r.1 = (u.takeFrom prio q).1 →
      r.2.mlqReadyQueue = (u.takeFrom prio q).2.mlqReadyQueue →
      s.ready = r.1.toList + r.2.ready := by
    intro u q hu hq hne hr ht
    obtain ⟨p, hp, hready⟩ := ready_takeFrom prio hq hne ht
    rw [hr, hp, ← ready_congr hu, hready, Option.toList_some, Multiset.coe_singleton,
      Multiset.singleton_add]
  cases hcase with
  | stay _ hq => exact hserve rfl h.mark_lt hq.1 rfl rfl
  | scan q _ _ hlt hq _ => exact hserve rfl hlt hq.1 rfl rfl
  | wrap q _ _ hlt hq _ => exact hserve (u := s.reset) rfl hlt hq rfl rfl
  | null _ _ =>
      rw [Option.toList_none, Multiset.coe_nil, zero_add]
      exact ready_congr rfl

/-- The queue that `p` would enter is full. -/
def Refuses (prio : α → ℕ) (s : Sched α) (p : α) : Prop :=
  (s.mlqReadyQueue (prio p)).size = maxQueueSize

instance (s : Sched α) (p : α) : Decidable (s.Refuses prio p) :=
  inferInstanceAs (Decidable (_ = _))

/-- **`put_mlq_proc` and `add_mlq_proc`** enter the process, unless its queue is full. -/
theorem ready_putMlqProc {s t : Sched α} {p : α} (h : putMlqProc prio s p = some t) :
    t.ready = (if s.Refuses prio p then 0 else {p}) + s.ready := by
  obtain ⟨hlt, rfl⟩ := (putMlqProc_eq_some prio).mp h
  have hupdate := ready_update hlt ((s.mlqReadyQueue (prio p)).enqueue p)
    (s := s) (t := { s with
      mlqReadyQueue :=
        Function.update s.mlqReadyQueue (prio p) ((s.mlqReadyQueue (prio p)).enqueue p) }) rfl
  by_cases hfull : s.Refuses prio p
  · rw [if_pos hfull, zero_add]
    rw [Queue.enqueue_of_full hfull] at hupdate ⊢
    exact add_right_cancel hupdate
  · rw [if_neg hfull, add_comm]
    rw [Queue.proc_enqueue_of_room hfull, ← Multiset.coe_add, Multiset.coe_singleton,
      add_left_comm, add_comm] at hupdate
    exact add_left_cancel hupdate

/-- So do `put_proc` and `add_proc`: the running list is not a ready queue. -/
theorem ready_putProc {s t : Sched α} {p : α} (h : putProc prio s p = some t) :
    t.ready = (if s.Refuses prio p then 0 else {p}) + s.ready := by
  have hput := ready_putMlqProc (s := s.enlistRunning p) h
  rwa [ready_enlistRunning] at hput

/-- The scheduler and its clients' books. -/
structure Accounts (α : Type u) where
  /-- The scheduler. -/
  sched : Sched α
  /-- The processes passed to `add_proc`. -/
  added : Multiset α
  /-- The processes returned by `get_proc` and not put back since. -/
  checkedOut : Multiset α
  /-- The processes that met a full queue, with the number of times. -/
  refused : Multiset α

variable [DecidableEq α]

/-- The clients pass each process to `add_proc` once, and to `put_proc` only while it
is checked out. -/
def clientStep (prio : α → ℕ) (a : Accounts α) : Call α → Option (Accounts α)
  | .addProc p =>
      if p ∈ a.added then none
      else (addProc prio a.sched p).map fun t =>
        { sched := t
          added := p ::ₘ a.added
          checkedOut := a.checkedOut
          refused := (if a.sched.Refuses prio p then {p} else 0) + a.refused }
  | .putProc p =>
      if p ∈ a.checkedOut then
        (putProc prio a.sched p).map fun t =>
          { sched := t
            added := a.added
            checkedOut := a.checkedOut.erase p
            refused := (if a.sched.Refuses prio p then {p} else 0) + a.refused }
      else none
  | .getProc =>
      let r := getProc prio a.sched
      some { sched := r.2
             added := a.added
             checkedOut := r.1.toList + a.checkedOut
             refused := a.refused }

/-- The empty books of a scheduler after `init_scheduler`. -/
def Accounts.init : Accounts α := ⟨Sched.initScheduler, 0, 0, 0⟩

/-- All use of the scheduler that keeps to the rules of `clientStep`. -/
def clientSystem (prio : α → ℕ) : Lts (Accounts α) (Call α) where
  init a := a = Accounts.init
  step := clientStep prio

/-- The books balance. -/
def Balanced (a : Accounts α) : Prop :=
  a.sched.ready + a.checkedOut + a.refused = a.added

omit [DecidableEq α] in
variable (prio) in
/-- Entering `p` keeps the balance: it is ready or it is refused. -/
theorem ready_add_refused {s t : Sched α} {p : α} (h : putProc prio s p = some t)
    (refused : Multiset α) :
    t.ready + ((if s.Refuses prio p then {p} else 0) + refused) =
      p ::ₘ (s.ready + refused) := by
  rw [ready_putProc h]
  by_cases hfull : s.Refuses prio p
  · rw [if_pos hfull, if_pos hfull, zero_add, Multiset.singleton_add, Multiset.add_cons]
  · rw [if_neg hfull, if_neg hfull, zero_add, Multiset.singleton_add, Multiset.cons_add]

/-- **One call** keeps the balance. -/
theorem balanced_step {a b : Accounts α} {c : Call α}
    (h : a.sched.Counters ∧ Balanced a) (hc : clientStep prio a c = some b) :
    b.sched.Counters ∧ Balanced b := by
  obtain ⟨hcounters, hbal⟩ := h
  rw [Balanced, add_right_comm] at hbal
  cases c with
  | addProc p =>
      rw [clientStep] at hc
      split at hc
      · exact absurd hc (by simp)
      · obtain ⟨t, ht, rfl⟩ := Option.map_eq_some_iff.mp hc
        refine ⟨hcounters.call (c := .addProc p) ht, ?_⟩
        have hentry := ready_add_refused prio (s := a.sched) (p := p) ht a.refused
        rw [Balanced, add_right_comm, hentry, Multiset.cons_add, hbal]
  | putProc p =>
      rw [clientStep] at hc
      split at hc
      · next hout =>
          obtain ⟨t, ht, rfl⟩ := Option.map_eq_some_iff.mp hc
          refine ⟨hcounters.call (c := .putProc p) ht, ?_⟩
          have hentry := ready_add_refused prio (s := a.sched) (p := p) ht a.refused
          rw [Balanced, add_right_comm, hentry, Multiset.cons_add, ← Multiset.add_cons,
            Multiset.cons_erase hout, hbal]
      · exact absurd hc (by simp)
  | getProc =>
      obtain rfl := Option.some.inj hc
      refine ⟨Or.inr hcounters.started_getMlqProc, ?_⟩
      rw [ready_getMlqProc prio hcounters] at hbal
      rw [Balanced, ← hbal]
      simp only [getProc]
      abel

/-- **Conservation**: in every reachable state, the ready processes, those checked out
and those refused by a full queue are together exactly the processes added. -/
theorem reachable_conservation {a : Accounts α} (h : (clientSystem prio).Reachable a) :
    a.sched.ready + a.checkedOut + a.refused = a.added := by
  have hinv := h.invariant (P := fun a => a.sched.Counters ∧ Balanced a)
    (by
      rintro a rfl
      refine ⟨Or.inl fresh_initScheduler, ?_⟩
      simp only [Balanced, Accounts.init, ready, initScheduler, Queue.proc_nil, Multiset.coe_nil,
        Finset.sum_const_zero, add_zero])
    (fun _ _ _ hs hc => balanced_step hs hc)
  exact hinv.2

/-- A process added, fetched and put back. -/
theorem reachable_conservation_one :
    ∃ a, (clientSystem id).run (Accounts.init : Accounts ℕ)
        [.addProc 0, .getProc, .getProc, .putProc 0] = some a ∧
      a.sched.ready + a.checkedOut + a.refused = a.added := by
  obtain ⟨a, ha⟩ := Option.isSome_iff_exists.mp (show ((clientSystem id).run
    (Accounts.init : Accounts ℕ) [.addProc 0, .getProc, .getProc, .putProc 0]).isSome by
      decide +kernel)
  exact ⟨a, ha, reachable_conservation ⟨Accounts.init, _, rfl, ha⟩⟩

/-- Eleven processes of one priority: the last one is lost. -/
theorem conservation_fails_eleven :
    ∃ a, (clientSystem fun _ : ℕ => 0).Reachable a ∧
      a.sched.ready + a.checkedOut ≠ a.added := by
  have hrun : (((clientSystem fun _ : ℕ => 0).run Accounts.init
      ((List.range 11).map Call.addProc)).any fun a =>
      (a.sched.ready + a.checkedOut).card ≠ a.added.card) = true := by decide +kernel
  obtain ⟨a, ha, hfewer⟩ := (Option.any_eq_true _ _).mp hrun
  rw [decide_eq_true_eq] at hfewer
  exact ⟨a, ⟨_, _, rfl, ha⟩, fun heq => hfewer (congrArg Multiset.card heq)⟩

end SimOs.Sched
