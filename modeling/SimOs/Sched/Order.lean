import SimOs.Lib.Fifo
import SimOs.Sched.Conservation

/-!
# The order of dispatch

Within a priority the scheduler is first in, first out: `dequeue` searches for the
largest `prio`, but all processes of one ready queue have the same, so it takes the
first.  The 140 array queues refine 140 lists.

Between priorities the order depends on the mark.  A call serves the marked queue as
long as that has quota left, and otherwise scans onward from the mark, so a process
that arrives in a queue before the mark waits for the next round, whatever its priority.
`priority_order_iff` says exactly when a call passes over a queue of higher priority.

## Main definitions

* `lists`, `fifoOp`: the ready queues as lists, and what a call does to them.
* `round_robin`: the queues refine the lists.
* `DispatchesFrom`, `PriorityOrder`: which queue a call serves, and that no queue of
  higher priority could have been.
* `PassedOver`: the states in which one could.
-/

namespace SimOs.Sched

universe u
variable {α : Type u} {prio : α → ℕ}

/-! ## First in, first out -/

/-- The ready queues as lists. -/
def lists (s : Sched α) (q : ℕ) : List α := (s.mlqReadyQueue q).proc

/-- What a call does to the lists: `add_proc` and `put_proc` enter a process under its
priority, `get_proc` takes out the process that it returns. -/
def fifoOp (prio : α → ℕ) (s : Sched α) : Call α → Fifo.Op ℕ α
  | .addProc p => .enter (prio p) p
  | .putProc p => .enter (prio p) p
  | .getProc =>
      match (getProc prio s).1 with
      | some p => .leave (prio p) p
      | none => .skip

/-- No full ready queue receives a process. -/
def Call.HasRoom (prio : α → ℕ) (s : Sched α) : Call α → Prop
  | .addProc p => ¬ s.Refuses prio p
  | .putProc p => ¬ s.Refuses prio p
  | .getProc => True

instance (s : Sched α) (c : Call α) : Decidable (c.HasRoom prio s) := by
  cases c with
  | addProc p => exact inferInstanceAs (Decidable (¬ _))
  | putProc p => exact inferInstanceAs (Decidable (¬ _))
  | getProc => exact inferInstanceAs (Decidable True)

/-- The sequences of calls in which no full ready queue receives a process. -/
def roomySystem (prio : α → ℕ) : Lts (Sched α) (Call α) where
  init s := s = initScheduler
  step s c := if c.HasRoom prio s then call prio s c else none

/-- Every ready queue holds processes of its own priority. -/
def Sorted (prio : α → ℕ) (f : ℕ → List α) : Prop := ∀ q, ∀ p ∈ f q, prio p = q

/-- Processes that enter under their priority stay sorted. -/
theorem Sorted.step {f g : ℕ → List α} (hs : Sorted prio f) {op : Fifo.Op ℕ α}
    (hop : ∀ q p, op = .enter q p → prio p = q) (h : Fifo.Step f op g) : Sorted prio g := by
  intro q p hp
  cases h with
  | enter j a =>
      rcases eq_or_ne q j with rfl | hne
      · rw [Function.update_self, List.mem_append, List.mem_singleton] at hp
        rcases hp with hp | rfl
        · exact hs q p hp
        · exact hop q p rfl
      · rw [Function.update_of_ne hne] at hp
        exact hs q p hp
  | leave j a rest hf =>
      rcases eq_or_ne q j with rfl | hne
      · rw [Function.update_self] at hp
        exact hs q p (hf ▸ List.mem_cons_of_mem a hp)
      · rw [Function.update_of_ne hne] at hp
        exact hs q p hp
  | skip => exact hs q p hp

/-- **`dequeue` takes the first** of processes that all have the same `prio`. -/
theorem dequeue_of_same {q : ℕ} {queue : Queue α} (hne : queue.size ≠ 0)
    (hsame : ∀ p ∈ queue.proc, prio p = q) :
    ∃ p rest, queue.proc = p :: rest ∧ (queue.dequeue prio).1 = some p ∧
      (queue.dequeue prio).2.proc = rest := by
  obtain ⟨pre, p, post, hsplit, hp, hrest, hpre, -⟩ := Queue.dequeue_eq prio hne
  cases pre with
  | nil => exact ⟨p, post, hsplit, hp, hrest⟩
  | cons a pre =>
      -- A process before `p` would have a smaller `prio`.
      have ha : prio a = q := hsame a (by simp [hsplit])
      have hpq : prio p = q := hsame p (by simp [hsplit])
      have hlt : prio a < prio p := hpre a List.mem_cons_self
      omega

theorem lists_update {s t : Sched α} {q : ℕ} {queue : Queue α}
    (ht : t.mlqReadyQueue = Function.update s.mlqReadyQueue q queue) :
    t.lists = Function.update s.lists q queue.proc := by
  ext r : 1
  rw [lists, ht]
  rcases eq_or_ne r q with rfl | hne
  · rw [Function.update_self, Function.update_self]
  · rw [Function.update_of_ne hne, Function.update_of_ne hne, lists]

/-- **`get_mlq_proc`** takes the first process out of one list, or nothing. -/
theorem getMlqProc_step {s : Sched α} (hc : s.Counters) (hs : Sorted prio s.lists) :
    Fifo.Step s.lists (fifoOp prio s .getProc) (getMlqProc prio s).2.lists := by
  have hcase := getMlqProc_cases prio hc.mark_lt
  simp only [fifoOp, getProc]
  generalize getMlqProc prio s = r at hcase ⊢
  have hserve : ∀ {u : Sched α} {q : ℕ}, u.mlqReadyQueue = s.mlqReadyQueue →
      (u.mlqReadyQueue q).size ≠ 0 → r.1 = (u.takeFrom prio q).1 →
      r.2.mlqReadyQueue = (u.takeFrom prio q).2.mlqReadyQueue →
      Fifo.Step s.lists (match r.1 with | some p => .leave (prio p) p | none => .skip)
        r.2.lists := by
    intro u q hu hne hr ht
    rw [mlqReadyQueue_takeFrom, hu] at ht
    rw [takeFrom, hu] at hr
    rw [hu] at hne
    obtain ⟨p, rest, hsplit, hp, hrest⟩ := dequeue_of_same hne (hs q)
    have hpq : prio p = q := hs q p (by simp [lists, hsplit])
    rw [hr, lists_update ht, hrest]
    simp only [hp, hpq]
    exact .leave q p rest hsplit
  cases hcase with
  | stay _ hq => exact hserve rfl hq.1 rfl rfl
  | scan q _ _ _ hq _ => exact hserve rfl hq.1 rfl rfl
  | wrap q _ _ _ hq _ => exact hserve (u := s.reset) rfl hq rfl rfl
  | null _ _ => exact .skip

/-- **`put_mlq_proc` and `add_mlq_proc`** enter a process at the end of its list. -/
theorem putMlqProc_step {s t : Sched α} {p : α} (h : putMlqProc prio s p = some t)
    (hroom : ¬ s.Refuses prio p) : Fifo.Step s.lists (.enter (prio p) p) t.lists := by
  obtain ⟨-, ht⟩ := (putMlqProc_eq_some prio).mp h
  rw [lists_update (congrArg mlqReadyQueue ht), Queue.proc_enqueue_of_room hroom]
  exact .enter (prio p) p

/-- **One call** does to the lists what `fifoOp` says. -/
theorem call_step {s t : Sched α} (hc : s.Counters) (hs : Sorted prio s.lists) {c : Call α}
    (hroom : c.HasRoom prio s) (h : call prio s c = some t) :
    Fifo.Step s.lists (fifoOp prio s c) t.lists := by
  cases c with
  | addProc p => exact putMlqProc_step (s := s.enlistRunning p) h hroom
  | putProc p => exact putMlqProc_step (s := s.enlistRunning p) h hroom
  | getProc =>
      obtain rfl := Option.some.inj h
      exact getMlqProc_step hc hs

theorem fifoOp_enter {s : Sched α} {c : Call α} {q : ℕ} {p : α}
    (h : fifoOp prio s c = .enter q p) : prio p = q := by
  cases c with
  | addProc a =>
      obtain ⟨rfl, rfl⟩ := Fifo.Op.enter.inj h
      rfl
  | putProc a =>
      obtain ⟨rfl, rfl⟩ := Fifo.Op.enter.inj h
      rfl
  | getProc =>
      simp only [fifoOp] at h
      split at h <;> cases h

/-- **Round robin within a priority**: in every run in which no full ready queue receives
a process, the ready queues behave as lists that processes enter at the back and leave
at the front.  So for each priority, the processes that `get_proc` has returned, and
after them those in the queue, are the processes that entered, in the same order. -/
theorem round_robin {calls : List (Call α)} {s : Sched α}
    (h : (roomySystem prio).run initScheduler calls = some s) :
    Fifo.Run (fun _ => []) ((roomySystem prio).trace (fifoOp prio) initScheduler calls) s.lists ∧
    ∀ q, Fifo.entered q ((roomySystem prio).trace (fifoOp prio) initScheduler calls) =
      Fifo.left q ((roomySystem prio).trace (fifoOp prio) initScheduler calls) ++
        (s.mlqReadyQueue q).proc := by
  have hinv := (roomySystem prio).trace_invariant (fifoOp prio)
    (P := fun s ops => s.Counters ∧ Sorted prio s.lists ∧ Fifo.Run (fun _ => []) ops s.lists)
    ?_ h ⟨Or.inl fresh_initScheduler, by simp [Sorted, lists, initScheduler], .nil⟩
  · constructor
    · exact hinv.2.2
    · intro q
      exact hinv.2.2.history q
  · rintro s ops c t ⟨hc, hs, hrun⟩ hcall
    simp only [roomySystem] at hcall
    split at hcall
    · next hroom =>
        have hstep := call_step hc hs hroom hcall
        exact ⟨hc.call hcall, hs.step (fun _ _ => fifoOp_enter) hstep, hrun.concat hstep⟩
    · cases hcall

/-- Two processes of one priority, fetched, put back and fetched again. -/
def twoInTurn : List (Call (ℕ × ℕ)) :=
  [.getProc, .addProc (3, 0), .addProc (3, 1), .getProc, .putProc (3, 0), .getProc]

theorem round_robin_two :
    ∃ s, (roomySystem Prod.fst).run initScheduler twoInTurn = some s ∧
      Fifo.entered 3 ((roomySystem Prod.fst).trace (fifoOp Prod.fst) initScheduler twoInTurn) =
        Fifo.left 3 ((roomySystem Prod.fst).trace (fifoOp Prod.fst) initScheduler twoInTurn) ++
          (s.mlqReadyQueue 3).proc := by
  obtain ⟨s, hs⟩ := Option.isSome_iff_exists.mp (show ((roomySystem Prod.fst).run
    (initScheduler : Sched (ℕ × ℕ)) twoInTurn).isSome by decide +kernel)
  exact ⟨s, hs, (round_robin hs).2 3⟩

/-! ## Between priorities -/

/-- `get_proc` returns a process out of queue `q`. -/
def DispatchesFrom (prio : α → ℕ) (s : Sched α) (q : ℕ) : Prop :=
  ∃ p, (getProc prio s).1 = some p ∧
    (s.mlqReadyQueue q).proc.Perm (p :: ((getProc prio s).2.mlqReadyQueue q).proc)

/-- If `get_proc` returns a process out of a queue, every queue of higher priority is
empty or has used up its quota. -/
def PriorityOrder (prio : α → ℕ) (s : Sched α) : Prop :=
  ∀ p, DispatchesFrom prio s p → ∀ q, q < p →
    (s.mlqReadyQueue q).size = 0 ∨ (maxPrio : ℤ) - q ≤ s.slot q

/-- A queue before the mark waits with quota left, and so does one from the mark on. -/
def PassedOver (s : Sched α) : Prop :=
  (∃ q, q < s.markedPrior ∧ s.Eligible q) ∧ ∃ r, r < maxPrio ∧ s.markedPrior ≤ r ∧ s.Eligible r

theorem not_eligible_iff {s : Sched α} {q : ℕ} :
    ¬ s.Eligible q ↔ (s.mlqReadyQueue q).size = 0 ∨ (maxPrio : ℤ) - q ≤ s.slot q := by
  rw [Eligible, not_and_or, not_not, not_lt]

/-- A call that takes from queue `q` dispatches from that queue only. -/
theorem dispatchesFrom_iff {s u : Sched α} {q : ℕ} (hu : u.mlqReadyQueue = s.mlqReadyQueue)
    (hne : (s.mlqReadyQueue q).size ≠ 0) (hr : (getMlqProc prio s).1 = (u.takeFrom prio q).1)
    (ht : (getMlqProc prio s).2.mlqReadyQueue = (u.takeFrom prio q).2.mlqReadyQueue) (p : ℕ) :
    DispatchesFrom prio s p ↔ p = q := by
  rw [mlqReadyQueue_takeFrom, hu] at ht
  rw [takeFrom, hu] at hr
  simp only [DispatchesFrom, getProc, ht]
  constructor
  · rintro ⟨a, -, hperm⟩
    by_contra hpq
    rw [Function.update_of_ne hpq] at hperm
    have := hperm.length_eq
    rw [List.length_cons] at this
    omega
  · rintro rfl
    obtain ⟨a, ha⟩ := Queue.dequeue_isSome prio hne
    refine ⟨a, hr.trans ha, ?_⟩
    rw [Function.update_self]
    exact Queue.dequeue_perm ha

/-- **When the order of priorities is kept.** -/
theorem Counters.priorityOrder_iff {s : Sched α} (h : s.Counters) :
    PriorityOrder prio s ↔ ¬ s.PassedOver := by
  have hcase := getMlqProc_cases prio h.mark_lt
  have hfrom : ∀ {u : Sched α} {q : ℕ}, u.mlqReadyQueue = s.mlqReadyQueue →
      (s.mlqReadyQueue q).size ≠ 0 → getMlqProc prio s = u.serve prio q ∨
        getMlqProc prio s = u.takeFrom prio q → ∀ p, DispatchesFrom prio s p ↔ p = q := by
    intro u q hu hne hr p
    rcases hr with hr | hr
    · exact dispatchesFrom_iff hu hne (by rw [hr]; rfl) (by rw [hr]; rfl) p
    · exact dispatchesFrom_iff hu hne (by rw [hr]) (by rw [hr]) p
  have horder : PriorityOrder prio s ↔
      ∀ p, DispatchesFrom prio s p → ∀ q, q < p → ¬ s.Eligible q := by
    simp only [PriorityOrder, not_eligible_iff]
  rw [horder]
  generalize hr : getMlqProc prio s = r at hcase
  cases hcase with
  | stay hflag hq =>
      simp only [hfrom rfl hq.1 (Or.inr hr), forall_eq]
      constructor
      · rintro hnone ⟨⟨q, hlt, hel⟩, -⟩
        exact hnone q hlt hel
      · intro hnot q hlt hel
        exact hnot ⟨⟨q, hlt, hel⟩, _, h.mark_lt, le_rfl, hq⟩
  | scan q _ hle hlt hq hfirst =>
      simp only [hfrom rfl hq.1 (Or.inl hr), forall_eq]
      constructor
      · rintro hnone ⟨⟨p, hp, hel⟩, -⟩
        exact hnone p (by omega) hel
      · intro hnot p hp hel
        rcases Nat.lt_or_ge p s.markedPrior with hbefore | hpast
        · exact hnot ⟨⟨p, hbefore, hel⟩, q, hlt, hle, hq⟩
        · exact hfirst p hpast hp hel
  | wrap q hmiss _ hlt hq hfirst =>
      simp only [hfrom (u := s.reset) rfl hq (Or.inl hr), forall_eq]
      constructor
      · rintro - ⟨-, p, hp, hle, hel⟩
        exact hmiss p hle hp hel
      · intro _ p hp hel
        exact hel.1 (hfirst p hp)
  | null hmiss _ =>
      constructor
      · rintro - ⟨-, p, hp, hle, hel⟩
        exact hmiss p hle hp hel
      · rintro - p ⟨a, ha, -⟩
        rw [getProc, hr] at ha
        cases ha

/-- **When the order of priorities is kept**: in every reachable state, exactly if no
queue before the mark waits with quota left while one from the mark on does. -/
theorem priority_order_iff {s : Sched α} (h : (callSystem prio).Reachable s) :
    PriorityOrder prio s ↔ ¬ s.PassedOver :=
  (reachable_counters h).priorityOrder_iff

/-- A process of priority 4 has been dispatched, one of priority 0 arrives, and the first
one is put back. -/
def lateArrival : List (Call ℕ) := [.getProc, .addProc 4, .getProc, .addProc 0, .putProc 4]

theorem priority_order_iff_late :
    ∃ s, (callSystem id).run initScheduler lateArrival = some s ∧
      (PriorityOrder id s ↔ ¬ s.PassedOver) := by
  obtain ⟨s, hs⟩ := Option.isSome_iff_exists.mp (show ((callSystem id).run
    (initScheduler : Sched ℕ) lateArrival).isSome by decide +kernel)
  exact ⟨s, hs, priority_order_iff ⟨initScheduler, _, rfl, hs⟩⟩

/-- After the late arrival, the process of priority 4 is dispatched before that of
priority 0. -/
theorem priority_order_fails_late :
    ∃ s : Sched ℕ, (callSystem id).Reachable s ∧ (getProc id s).1 = some 4 ∧
      ¬ PriorityOrder id s := by
  have hrun : ((callSystem id).run (initScheduler : Sched ℕ) lateArrival).any (fun s =>
      (getProc id s).1 = some 4 ∧ s.Eligible 0 ∧ s.markedPrior = 4 ∧ s.Eligible 4) = true := by
    decide +kernel
  obtain ⟨s, hs, hcase⟩ := (Option.any_eq_true _ _).mp hrun
  obtain ⟨hget, htop, hmark, hlow⟩ := of_decide_eq_true hcase
  have hreach : (callSystem id).Reachable s := ⟨_, _, rfl, hs⟩
  refine ⟨s, hreach, hget, ?_⟩
  rw [(reachable_counters hreach).priorityOrder_iff, not_not]
  exact ⟨⟨0, by omega, htop⟩, 4, by decide, hmark.le, hlow⟩

end SimOs.Sched
