import SimOs.Sched.Queue
import Mathlib.Algebra.Order.Ring.Int
import Mathlib.Logic.Function.Basic

/-!
# A queue as a priority queue

The ready queues hold processes of one priority each, but `queue.c` does not depend on
that: `dequeue` searches the whole array for the largest `prio`.  Seen from outside a
queue is one list for each priority.  A process enters at the back of its list, unless
the array is full, and the front of the highest list that is not empty leaves.  The gap
that `dequeue` closes by shifting is what keeps each list in the order of arrival.

## Main definitions

* `Queue.Op`, `Queue.apply`, `Queue.results`, `Queue.after`: sequences of `enqueue` and
  `dequeue`, with what they return.
* `Classes`, `Classes.Step`, `Classes.Run`: the priority queue.
* `Queue.classes`: a queue seen as one.
* `Queue.results_refine`: the refinement.
-/

namespace SimOs

open Function

universe u
variable {α : Type u} {prio : α → ℕ}

/-! ## The priority queue -/

/-- The two operations of a queue. -/
inductive Queue.Op (α : Type u)
  | enqueue (p : α)
  | dequeue

/-- The processes that wait, by priority and in the order of arrival. -/
structure Classes (α : Type u) where
  /-- The processes of each priority. -/
  waiting : ℕ → List α
  /-- How many there are of all priorities together. -/
  size : ℕ

namespace Classes

/-- What an operation does and returns. -/
inductive Step (prio : α → ℕ) (c : Classes α) : Queue.Op α → Option α → Classes α → Prop
  /-- A process goes to the back of its class. -/
  | enqueue (p : α) (h : c.size ≠ maxQueueSize) :
      Step prio c (.enqueue p) none
        ⟨update c.waiting (prio p) (c.waiting (prio p) ++ [p]), c.size + 1⟩
  /-- The full queue drops it. -/
  | refuse (p : α) (h : c.size = maxQueueSize) : Step prio c (.enqueue p) none c
  /-- The oldest process of the highest class that is not empty leaves. -/
  | dequeue (p : α) (rest : List α) (h : c.waiting (prio p) = p :: rest)
      (hhigh : ∀ k, prio p < k → c.waiting k = []) :
      Step prio c .dequeue (some p) ⟨update c.waiting (prio p) rest, c.size - 1⟩
  /-- Nothing waits. -/
  | empty (h : ∀ k, c.waiting k = []) : Step prio c .dequeue none c

/-- A sequence of operations and what each of them returns. -/
inductive Run (prio : α → ℕ) : Classes α → List (Queue.Op α) → List (Option α) → Classes α → Prop
  | nil (c : Classes α) : Run prio c [] [] c
  | cons {c d e : Classes α} {op : Queue.Op α} {r : Option α} {ops : List (Queue.Op α)}
      {rs : List (Option α)} (hstep : Step prio c op r d) (hrun : Run prio d ops rs e) :
      Run prio c (op :: ops) (r :: rs) e

end Classes

namespace Queue

/-- A call on a queue: `enqueue` returns nothing. -/
def apply (prio : α → ℕ) (q : Queue α) : Op α → Option α × Queue α
  | .enqueue p => (none, q.enqueue p)
  | .dequeue => q.dequeue prio

/-- What a sequence of calls returns. -/
def results (prio : α → ℕ) : Queue α → List (Op α) → List (Option α)
  | _, [] => []
  | q, op :: ops => (q.apply prio op).1 :: results prio (q.apply prio op).2 ops

/-- The queue after a sequence of calls. -/
def after (prio : α → ℕ) : Queue α → List (Op α) → Queue α
  | q, [] => q
  | q, op :: ops => after prio (q.apply prio op).2 ops

/-- A queue seen by priority. -/
def classes (prio : α → ℕ) (q : Queue α) : Classes α where
  waiting k := q.proc.filter fun p => prio p = k
  size := q.size

/-! ## One operation -/

theorem filter_prio_self (p : α) (l : List α) :
    (p :: l).filter (fun x => prio x = prio p) = p :: l.filter fun x => prio x = prio p :=
  List.filter_cons_of_pos (by simp)

theorem filter_prio_of_ne {p : α} {k : ℕ} (hk : k ≠ prio p) (l : List α) :
    (p :: l).filter (fun x => prio x = k) = l.filter fun x => prio x = k :=
  List.filter_cons_of_neg (by simpa using Ne.symm hk)

/-- `enqueue` with room left. -/
theorem classes_enqueue {q : Queue α} {p : α} (h : q.size ≠ maxQueueSize) :
    (q.enqueue p).classes prio = ⟨update (q.classes prio).waiting (prio p)
      ((q.classes prio).waiting (prio p) ++ [p]), (q.classes prio).size + 1⟩ := by
  have hproc := proc_enqueue_of_room h p
  simp only [classes, size, hproc, List.length_append, List.length_singleton,
    Classes.mk.injEq, and_true]
  ext k : 1
  rw [List.filter_append]
  rcases eq_or_ne k (prio p) with rfl | hne
  · rw [update_self, filter_prio_self, List.filter_nil]
  · rw [update_of_ne hne, filter_prio_of_ne hne, List.filter_nil, List.append_nil]

/-- `dequeue` from a queue that is not empty. -/
theorem classes_dequeue {q : Queue α} (h : q.size ≠ 0) :
    ∃ p rest, (q.dequeue prio).1 = some p ∧ (q.classes prio).waiting (prio p) = p :: rest ∧
      (∀ k, prio p < k → (q.classes prio).waiting k = []) ∧
      (q.dequeue prio).2.classes prio =
        ⟨update (q.classes prio).waiting (prio p) rest, (q.classes prio).size - 1⟩ := by
  obtain ⟨pre, p, post, hproc, hret, hrest, hpre, hpost⟩ := dequeue_eq prio h
  -- The processes in front of `p` are of lower priority.
  have hnone : pre.filter (fun x => prio x = prio p) = [] := by
    refine List.filter_eq_nil_iff.mpr fun x hx => ?_
    simpa using (hpre x hx).ne
  refine ⟨p, post.filter fun x => prio x = prio p, hret, ?_, ?_, ?_⟩
  · simp only [classes, hproc, List.filter_append, hnone, List.nil_append, filter_prio_self]
  · intro k hk
    refine List.filter_eq_nil_iff.mpr fun x hx => ?_
    have hle : prio x ≤ prio p := by
      rw [hproc, List.mem_append, List.mem_cons] at hx
      rcases hx with hx | rfl | hx
      · exact (hpre x hx).le
      · exact le_rfl
      · exact hpost x hx
    simpa using (hle.trans_lt hk).ne
  · have hsize := size_dequeue prio h
    simp only [classes, Classes.mk.injEq]
    refine ⟨?_, by omega⟩
    ext k : 1
    rw [hrest, List.filter_append]
    rcases eq_or_ne k (prio p) with rfl | hne
    · rw [update_self, hnone, List.nil_append]
    · rw [update_of_ne hne, hproc, List.filter_append, filter_prio_of_ne hne]

/-- Each call is an operation of the priority queue. -/
theorem step_apply (q : Queue α) (op : Op α) :
    Classes.Step prio (q.classes prio) op (q.apply prio op).1
      ((q.apply prio op).2.classes prio) := by
  cases op with
  | enqueue p =>
      by_cases hfull : q.size = maxQueueSize
      · rw [apply, enqueue_of_full hfull]
        exact .refuse p hfull
      · rw [apply, classes_enqueue hfull]
        exact .enqueue p hfull
  | dequeue =>
      by_cases hempty : q.size = 0
      · rw [apply, dequeue_nil prio hempty]
        refine .empty fun k => ?_
        simp only [classes, size_eq_zero.mp hempty, List.filter_nil]
      · obtain ⟨p, rest, hret, hfront, hhigh, hafter⟩ :=
          @classes_dequeue α prio q hempty
        rw [apply, hret, hafter]
        exact .dequeue p rest hfront hhigh

/-! ## Sequences of operations -/

/-- **A queue is a priority queue**: whatever sequence of `enqueue` and `dequeue` is
called on it, `dequeue` returns the oldest process of the highest priority that waits,
or nothing if none does, and a process is dropped exactly if ten already wait. -/
theorem results_refine (prio : α → ℕ) (q : Queue α) (ops : List (Op α)) :
    Classes.Run prio (q.classes prio) ops (q.results prio ops)
      ((q.after prio ops).classes prio) := by
  induction ops generalizing q with
  | nil => exact .nil _
  | cons op ops ih => exact .cons (step_apply q op) (ih (q.apply prio op).2)

end Queue
end SimOs
