import SimOs.Lib.Transition
import SimOs.Sched.Queue
import Mathlib.Algebra.Order.Ring.Int
import Mathlib.Logic.Function.Basic

/-!
# The multilevel queue scheduler

The state of `sched.c` in the `MLQ_SCHED` build: the 140 ready queues, the slot
counters, the running list, and the three globals `MarkedPrior`, `flag` and
`count` that `get_mlq_proc` carries from one call to the next.

`get_mlq_proc` is a loop around the label `label`.  One trip is `pass`, which
either returns or jumps back; `getMlqProcFuel` follows the jumps and
`getMlqProcFuel_three` shows that three trips always suffice, so `getMlqProc`
never runs out.  `getMlqProc_cases` lists everything a call can do, and no later
proof unfolds the loop again.

`count` and `slot` are unbounded integers here.  No run brings either near the
range of an `int`: `slot` stays within the quotas and `count` within 280.

## Main definitions

* `Sched α`: the globals of `sched.c`.
* `initScheduler`, `getMlqProc`, `putProc`, `addProc`: its functions.
* `GetCase`: the possible results of `get_mlq_proc`.
* `Call`, `callSystem`: the system of all call sequences.
-/

namespace SimOs

universe u
variable {α : Type u}

/-- `MAX_PRIO` of `os-cfg.h`. -/
def maxPrio : ℕ := 140

/-- The globals of `sched.c`.  The arrays have `MAX_PRIO` entries, of which index
`q` is the entry of priority `q`. -/
structure Sched (α : Type u) where
  /-- `mlq_ready_queue`. -/
  mlqReadyQueue : ℕ → Queue α
  /-- `slot`: how much of its quota each priority has used. -/
  slot : ℕ → ℤ
  /-- `running_list`. -/
  runningList : Queue α
  /-- `MarkedPrior`. -/
  markedPrior : ℕ
  /-- `flag`: scan for a queue rather than stay at the marked one. -/
  flag : Bool
  /-- `count`. -/
  count : ℤ

namespace Sched

/-- The state after `init_scheduler`, with the statically initialised globals. -/
def initScheduler : Sched α where
  mlqReadyQueue _ := Queue.nil
  slot q := maxPrio - q
  runningList := Queue.nil
  markedPrior := 0
  flag := true
  count := 0

/-- The test of both branches of `get_mlq_proc`: queue `q` is not empty and has
quota left. -/
def Eligible (s : Sched α) (q : ℕ) : Prop :=
  (s.mlqReadyQueue q).size ≠ 0 ∧ s.slot q < maxPrio - q

instance (s : Sched α) (q : ℕ) : Decidable (s.Eligible q) :=
  inferInstanceAs (Decidable (_ ∧ _))

section Calls
variable (prio : α → ℕ)

/-- `proc = dequeue(&mlq_ready_queue[q]); slot[q]++;` -/
def takeFrom (s : Sched α) (q : ℕ) : Option α × Sched α :=
  let r := (s.mlqReadyQueue q).dequeue prio
  (r.1, { s with
    mlqReadyQueue := Function.update s.mlqReadyQueue q r.2
    slot := Function.update s.slot q (s.slot q + 1) })

/-- The body of the scan on a hit: take from `q`, mark it and stop scanning. -/
def serve (s : Sched α) (q : ℕ) : Option α × Sched α :=
  let r := s.takeFrom prio q
  (r.1, { r.2 with markedPrior := q, flag := false, count := 0 })

/-- How one trip through the code below `label` ends. -/
inductive Jump (α : Type u)
  /-- `return proc;` -/
  | ret (proc : Option α) (s : Sched α)
  /-- `goto label;` -/
  | goto (s : Sched α)

/-- The scan `for (; MarkedPrior < MAX_PRIO; MarkedPrior++)` with `n` trips to go;
`goto` here means that it ran to its end. -/
def forLoop : ℕ → Sched α → Jump α
  | 0, s => .goto s
  | n + 1, s =>
      if s.Eligible s.markedPrior then
        let r := s.serve prio s.markedPrior
        .ret r.1 r.2
      else forLoop n { s with count := s.count + 1, markedPrior := s.markedPrior + 1 }

/-- The state after the scan missed: all quotas are renewed and the mark returns
to the top. -/
def reset (s : Sched α) : Sched α :=
  { s with slot := fun _ => 0, markedPrior := 0, flag := true }

/-- One trip from `label` to a `return` or a `goto label`. -/
def pass (s : Sched α) : Jump α :=
  if s.flag then
    match forLoop prio (maxPrio - s.markedPrior) s with
    | .ret proc t => .ret proc t
    | .goto t =>
        if t.reset.count = maxPrio then .ret none t.reset
        else .goto { t.reset with count := 0 }
  else if s.Eligible s.markedPrior then
    let r := s.takeFrom prio s.markedPrior
    .ret r.1 r.2
  else .goto { s with flag := true }

/-- `get_mlq_proc` with at most `n` trips. -/
def getMlqProcFuel : ℕ → Sched α → Option (Option α × Sched α)
  | 0, _ => none
  | n + 1, s =>
      match pass prio s with
      | .ret proc t => some (proc, t)
      | .goto t => getMlqProcFuel n t

/-- `get_mlq_proc`.  The default is never used, see `getMlqProcFuel_three`. -/
def getMlqProc (s : Sched α) : Option α × Sched α :=
  (getMlqProcFuel prio 3 s).getD (none, s)

/-- `get_proc`. -/
def getProc (s : Sched α) : Option α × Sched α := getMlqProc prio s

/-- The first critical section of `put_proc` and of `add_proc`. -/
def enlistRunning (s : Sched α) (p : α) : Sched α :=
  { s with runningList := s.runningList.enqueue p }

/-- `put_mlq_proc`.  A `prio` of 140 or more indexes the array out of range. -/
def putMlqProc (s : Sched α) (p : α) : Option (Sched α) :=
  if prio p < maxPrio then
    some { s with mlqReadyQueue :=
      Function.update s.mlqReadyQueue (prio p) ((s.mlqReadyQueue (prio p)).enqueue p) }
  else none

/-- `add_mlq_proc`, the same code as `put_mlq_proc`. -/
def addMlqProc (s : Sched α) (p : α) : Option (Sched α) := putMlqProc prio s p

/-- `put_proc`. -/
def putProc (s : Sched α) (p : α) : Option (Sched α) :=
  putMlqProc prio (s.enlistRunning p) p

/-- `add_proc`. -/
def addProc (s : Sched α) (p : α) : Option (Sched α) :=
  addMlqProc prio (s.enlistRunning p) p

/-- What `put_mlq_proc` and `add_mlq_proc` do. -/
theorem putMlqProc_eq_some {s t : Sched α} {p : α} :
    putMlqProc prio s p = some t ↔ prio p < maxPrio ∧
      t = { s with mlqReadyQueue :=
        Function.update s.mlqReadyQueue (prio p) ((s.mlqReadyQueue (prio p)).enqueue p) } := by
  rw [putMlqProc]
  by_cases hlt : prio p < maxPrio
  · rw [if_pos hlt, Option.some.injEq, eq_comm]
    exact (and_iff_right hlt).symm
  · simp only [hlt, false_and, if_false, reduceCtorEq]

/-- A call of the scheduler's interface. -/
inductive Call (α : Type u)
  | addProc (p : α)
  | putProc (p : α)
  | getProc
  deriving DecidableEq

/-- The effect of a call on the scheduler. -/
def call (s : Sched α) : Call α → Option (Sched α)
  | .addProc p => addProc prio s p
  | .putProc p => putProc prio s p
  | .getProc => some (getProc prio s).2

/-- All sequences of calls from `init_scheduler`. -/
def callSystem : Lts (Sched α) (Call α) where
  init s := s = initScheduler
  step := call prio

end Calls

/-! ## What a call of `get_mlq_proc` can do -/

section Cases
variable {prio : α → ℕ}

/-- The queues after `takeFrom`. -/
@[simp] theorem mlqReadyQueue_takeFrom (s : Sched α) (q : ℕ) :
    (s.takeFrom prio q).2.mlqReadyQueue =
      Function.update s.mlqReadyQueue q ((s.mlqReadyQueue q).dequeue prio).2 := rfl

@[simp] theorem slot_takeFrom (s : Sched α) (q : ℕ) :
    (s.takeFrom prio q).2.slot = Function.update s.slot q (s.slot q + 1) := rfl

@[simp] theorem markedPrior_takeFrom (s : Sched α) (q : ℕ) :
    (s.takeFrom prio q).2.markedPrior = s.markedPrior := rfl

@[simp] theorem flag_takeFrom (s : Sched α) (q : ℕ) :
    (s.takeFrom prio q).2.flag = s.flag := rfl

/-- The possible results of `get_mlq_proc`: what it returns and the state it
leaves. -/
inductive GetCase (prio : α → ℕ) (s : Sched α) : Option α × Sched α → Prop
  /-- The marked queue still has quota. -/
  | stay (hflag : s.flag = false) (hq : s.Eligible s.markedPrior) :
      GetCase prio s (s.takeFrom prio s.markedPrior)
  /-- The scan hits at `q`, at or above the mark. -/
  | scan (q : ℕ) (hflag : s.flag = true ∨ ¬ s.Eligible s.markedPrior)
      (hle : s.markedPrior ≤ q) (hlt : q < maxPrio) (hq : s.Eligible q)
      (hfirst : ∀ r, s.markedPrior ≤ r → r < q → ¬ s.Eligible r) :
      GetCase prio s (s.serve prio q)
  /-- The scan misses, the quotas are renewed, and the second scan hits at `q`. -/
  | wrap (q : ℕ) (hmiss : ∀ r, s.markedPrior ≤ r → r < maxPrio → ¬ s.Eligible r)
      (hcount : s.count + ↑(maxPrio - s.markedPrior) ≠ maxPrio)
      (hlt : q < maxPrio) (hq : (s.mlqReadyQueue q).size ≠ 0)
      (hfirst : ∀ r, r < q → (s.mlqReadyQueue r).size = 0) :
      GetCase prio s (s.reset.serve prio q)
  /-- `NULL`: either `count` says that one whole scan missed, or a second scan
  found every queue empty. -/
  | null (hmiss : ∀ r, s.markedPrior ≤ r → r < maxPrio → ¬ s.Eligible r)
      (hnull : s.count + ↑(maxPrio - s.markedPrior) = maxPrio ∨
        ∀ r, r < maxPrio → (s.mlqReadyQueue r).size = 0) :
      GetCase prio s (none, { s.reset with count := maxPrio })

variable (prio) in
/-- The scan either serves the first eligible queue or runs to its end. -/
theorem forLoop_cases (n : ℕ) (s : Sched α) :
    (∃ q, s.markedPrior ≤ q ∧ q < s.markedPrior + n ∧ s.Eligible q ∧
        (∀ r, s.markedPrior ≤ r → r < q → ¬ s.Eligible r) ∧
        forLoop prio n s = .ret (s.serve prio q).1 (s.serve prio q).2) ∨
    ((∀ r, s.markedPrior ≤ r → r < s.markedPrior + n → ¬ s.Eligible r) ∧
        forLoop prio n s =
          .goto { s with count := s.count + n, markedPrior := s.markedPrior + n }) := by
  induction n generalizing s with
  | zero =>
      right
      exact ⟨fun r hr hr' => by omega, by simp [forLoop]⟩
  | succ n ih =>
      by_cases hs : s.Eligible s.markedPrior
      · left
        refine ⟨s.markedPrior, le_rfl, by omega, hs, fun r hr hr' => by omega, ?_⟩
        rw [forLoop, if_pos hs]
      · -- One trip changes only the two counters, so `Eligible` is the same below.
        have hloop : forLoop prio (n + 1) s =
            forLoop prio n { s with count := s.count + 1, markedPrior := s.markedPrior + 1 } := by
          rw [forLoop, if_neg hs]
        have hmiss : ∀ {b : ℕ}, (∀ r, s.markedPrior + 1 ≤ r → r < b → ¬ s.Eligible r) →
            ∀ r, s.markedPrior ≤ r → r < b → ¬ s.Eligible r := by
          intro b h r hr hb
          rcases Nat.eq_or_lt_of_le hr with rfl | hr
          · exact hs
          · exact h r hr hb
        rcases ih { s with count := s.count + 1, markedPrior := s.markedPrior + 1 } with
          ⟨q, hle, hlt, hq, hfirst, heq⟩ | ⟨hnone, heq⟩
        · left
          refine ⟨q, by simp only at hle; omega, by simp only at hlt; omega, hq,
            hmiss hfirst, ?_⟩
          rw [hloop, heq]
          rfl
        · right
          refine ⟨hmiss fun r hr hb => hnone r hr (by simp only; omega), ?_⟩
          rw [hloop, heq]
          simp only [Nat.cast_add, Nat.cast_one]
          congr 2
          · omega
          · omega

/-- In a state whose quotas are all renewed, eligible means not empty. -/
theorem eligible_reset_iff (s : Sched α) {q : ℕ} (hq : q < maxPrio) :
    s.reset.Eligible q ↔ (s.mlqReadyQueue q).size ≠ 0 := by
  refine ⟨fun h => h.1, fun h => ⟨h, ?_⟩⟩
  change (0 : ℤ) < (maxPrio : ℤ) - (q : ℤ)
  omega

variable (prio) in
/-- One scanning trip, for any value of the mark up to the end of the array. -/
theorem pass_scan {s : Sched α} (hflag : s.flag = true) (hmark : s.markedPrior ≤ maxPrio) :
    (∃ q, s.markedPrior ≤ q ∧ q < maxPrio ∧ s.Eligible q ∧
        (∀ r, s.markedPrior ≤ r → r < q → ¬ s.Eligible r) ∧
        pass prio s = .ret (s.serve prio q).1 (s.serve prio q).2) ∨
    ((∀ r, s.markedPrior ≤ r → r < maxPrio → ¬ s.Eligible r) ∧
        pass prio s = if s.count + ↑(maxPrio - s.markedPrior) = (maxPrio : ℤ)
          then .ret none { s.reset with count := maxPrio }
          else .goto { s.reset with count := 0 }) := by
  have hend : s.markedPrior + (maxPrio - s.markedPrior) = maxPrio := by omega
  have hcases := forLoop_cases prio (maxPrio - s.markedPrior) s
  rw [hend] at hcases
  rcases hcases with ⟨q, hle, hlt, hq, hfirst, heq⟩ | ⟨hnone, heq⟩
  · left
    exact ⟨q, hle, hlt, hq, hfirst, by rw [pass, if_pos hflag, heq]⟩
  · right
    refine ⟨hnone, ?_⟩
    rw [pass, if_pos hflag, heq]
    by_cases hcount : s.count + ↑(maxPrio - s.markedPrior) = (maxPrio : ℤ)
    · simp only [reset, hcount, if_true]
    · simp only [reset, hcount, if_false]

variable (prio) in
/-- A scan from the top over renewed quotas returns in one trip. -/
theorem pass_reset (s : Sched α) :
    (∃ q, q < maxPrio ∧ (s.mlqReadyQueue q).size ≠ 0 ∧
        (∀ r, r < q → (s.mlqReadyQueue r).size = 0) ∧
        pass prio { s.reset with count := 0 } =
          .ret (s.reset.serve prio q).1 (s.reset.serve prio q).2) ∨
    ((∀ r, r < maxPrio → (s.mlqReadyQueue r).size = 0) ∧
        pass prio { s.reset with count := 0 } = .ret none { s.reset with count := maxPrio }) := by
  have hel : ∀ r, r < maxPrio →
      (Eligible { s.reset with count := 0 } r ↔ (s.mlqReadyQueue r).size ≠ 0) :=
    fun r hr => eligible_reset_iff s hr
  rcases pass_scan prio (s := { s.reset with count := 0 }) rfl (Nat.zero_le _) with
    ⟨q, -, hlt, hq, hfirst, heq⟩ | ⟨hnone, heq⟩
  · left
    refine ⟨q, hlt, (hel q hlt).mp hq, ?_, heq⟩
    intro r hr
    have := mt (hel r (hr.trans hlt)).mpr (hfirst r (Nat.zero_le _) hr)
    omega
  · right
    refine ⟨fun r hr => ?_, ?_⟩
    · have := mt (hel r hr).mpr (hnone r (Nat.zero_le _) hr)
      omega
    · rw [heq, if_pos (by simp [reset])]
      rfl

variable (prio) in
/-- A call that starts scanning returns within two trips. -/
theorem getMlqProcFuel_scan {s : Sched α} (hflag : s.flag = true)
    (hmark : s.markedPrior < maxPrio) (n : ℕ) :
    ∃ r, getMlqProcFuel prio (n + 2) s = some r ∧ GetCase prio s r := by
  rcases pass_scan prio hflag hmark.le with
    ⟨q, hle, hlt, hq, hfirst, heq⟩ | ⟨hmiss, heq⟩
  · refine ⟨_, ?_, GetCase.scan q (Or.inl hflag) hle hlt hq hfirst⟩
    rw [getMlqProcFuel, heq]
  · by_cases hcount : s.count + ↑(maxPrio - s.markedPrior) = (maxPrio : ℤ)
    · refine ⟨_, ?_, GetCase.null hmiss (Or.inl hcount)⟩
      rw [getMlqProcFuel, heq, if_pos hcount]
    · rw [if_neg hcount] at heq
      have hnext : getMlqProcFuel prio (n + 2) s =
          getMlqProcFuel prio (n + 1) { s.reset with count := 0 } := by
        rw [getMlqProcFuel, heq]
      rcases pass_reset prio s with ⟨q, hlt, hq, hfirst, heq'⟩ | ⟨hempty, heq'⟩
      · refine ⟨_, ?_, GetCase.wrap q hmiss hcount hlt hq hfirst⟩
        rw [hnext, getMlqProcFuel, heq']
      · refine ⟨_, ?_, GetCase.null hmiss (Or.inr hempty)⟩
        rw [hnext, getMlqProcFuel, heq']

/-- Raising `flag` at a marked queue that is not eligible changes no outcome: every
one of them sets `flag` itself. -/
theorem GetCase.of_flag {s : Sched α} {r : Option α × Sched α}
    (hs : ¬ s.Eligible s.markedPrior) (h : GetCase prio { s with flag := true } r) :
    GetCase prio s r := by
  cases h with
  | stay hflag _ => exact absurd hflag (by simp)
  | scan q _ hle hlt hq hfirst => exact GetCase.scan q (Or.inr hs) hle hlt hq hfirst
  | wrap q hmiss hcount hlt hq hfirst => exact GetCase.wrap q hmiss hcount hlt hq hfirst
  | null hmiss hnull => exact GetCase.null hmiss hnull

variable (prio) in
/-- **`get_mlq_proc` ends**: from a state with the mark in range, three trips reach a
`return`, and `GetCase` lists the outcomes. -/
theorem getMlqProcFuel_three {s : Sched α} (hmark : s.markedPrior < maxPrio) :
    ∃ r, getMlqProcFuel prio 3 s = some r ∧ GetCase prio s r := by
  by_cases hflag : s.flag = true
  · exact getMlqProcFuel_scan prio hflag hmark 1
  · have hflag' : s.flag = false := by simpa using hflag
    by_cases hs : s.Eligible s.markedPrior
    · refine ⟨_, ?_, GetCase.stay hflag' hs⟩
      rw [getMlqProcFuel, pass, if_neg hflag, if_pos hs]
    · obtain ⟨r, hr, hcase⟩ :=
        getMlqProcFuel_scan prio (s := { s with flag := true }) rfl hmark 0
      refine ⟨r, ?_, hcase.of_flag hs⟩
      rw [getMlqProcFuel, pass, if_neg hflag, if_neg hs]
      exact hr

variable (prio) in
/-- **What a call can do.** -/
theorem getMlqProc_cases {s : Sched α} (hmark : s.markedPrior < maxPrio) :
    GetCase prio s (getMlqProc prio s) := by
  obtain ⟨r, hr, hcase⟩ := getMlqProcFuel_three prio hmark
  rw [getMlqProc, hr]
  exact hcase

end Cases
end Sched
end SimOs
