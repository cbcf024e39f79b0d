import SimOs.Lib.Words
import SimOs.Sched.Mlq

/-!
# `get_mlq_proc` ends from every state

Whether `get_mlq_proc` jumps back to `label` depends on `flag` and on what earlier calls
left in `count`.  From any values of these, reachable or not, it jumps at most twice: once
to raise `flag`, and once after a scan that missed, which leaves `count` at 0 and the mark
at the top, so that the next scan dispatches or counts to exactly 140.

The counter is an `int` here, and wraps.  It does not do so before the test: a scan adds
at most 140, and what `count` was is lost with the first reset.

## Main definitions

* `forLoopInt`, `passInt`, `getMlqProcInt`: the loop with an `int`, counting its resets.
* `passInt_eq`: one trip is that of the loop with an unbounded counter.
* `getMlqProcInt_ends`: the calls end, whatever the state.
-/

namespace SimOs.Sched

universe u
variable {α : Type u} (prio : α → ℕ)

/-- The scan, with `count++` on an `int`. -/
def forLoopInt : ℕ → Sched α → Jump α
  | 0, s => .goto s
  | n + 1, s =>
      if s.Eligible s.markedPrior then
        let r := s.serve prio s.markedPrior
        .ret r.1 r.2
      else forLoopInt n
        { s with count := CInt.sint 32 (s.count + 1), markedPrior := s.markedPrior + 1 }

/-- One trip from `label`, and how often it resets the slot array. -/
def passInt (s : Sched α) : ℕ × Jump α :=
  if s.flag then
    match forLoopInt prio (maxPrio - s.markedPrior) s with
    | .ret proc t => (0, .ret proc t)
    | .goto t =>
        if t.reset.count = maxPrio then (1, .ret none t.reset)
        else (1, .goto { t.reset with count := 0 })
  else if s.Eligible s.markedPrior then
    let r := s.takeFrom prio s.markedPrior
    (0, .ret r.1 r.2)
  else (0, .goto { s with flag := true })

/-- `get_mlq_proc` with at most `n` trips: the number of resets, the process it returns and
the state. -/
def getMlqProcInt : ℕ → Sched α → Option (ℕ × Option α × Sched α)
  | 0, _ => none
  | n + 1, s =>
      match (passInt prio s).2 with
      | .ret proc t => some ((passInt prio s).1, proc, t)
      | .goto t => (getMlqProcInt n t).map fun r => ((passInt prio s).1 + r.1, r.2)

/-- The values of `count`. -/
def CountInt (s : Sched α) : Prop := -2 ^ 31 ≤ s.count ∧ s.count < 2 ^ 31

instance (s : Sched α) : Decidable s.CountInt := inferInstanceAs (Decidable (_ ∧ _))

/-! ## The counter -/

/-- What a scan does to a counter that wraps. -/
def Jump.wrapCount : Jump α → Jump α
  | .ret proc s => .ret proc s
  | .goto s => .goto { s with count := CInt.sint 32 s.count }

/-- The scan with an `int` is the scan with an integer, up to wrapping at its end. -/
theorem forLoopInt_eq (n : ℕ) (s : Sched α) :
    forLoopInt prio n { s with count := CInt.sint 32 s.count } = (forLoop prio n s).wrapCount := by
  induction n generalizing s with
  | zero => rfl
  | succ n ih =>
      have hwrap : CInt.sint 32 (CInt.sint 32 s.count + 1) = CInt.sint 32 (s.count + 1) :=
        Int.bmod_add_bmod
      have hnext := ih { s with count := s.count + 1, markedPrior := s.markedPrior + 1 }
      simp only [forLoopInt, forLoop, hwrap]
      by_cases hs : s.Eligible s.markedPrior
      · have hs' : Eligible { s with count := CInt.sint 32 s.count } s.markedPrior := hs
        rw [if_pos hs, if_pos hs']
        rfl
      · have hs' : ¬ Eligible { s with count := CInt.sint 32 s.count } s.markedPrior := hs
        rw [if_neg hs, if_neg hs']
        exact hnext

/-- A scan adds at most 140, so wrapping does not bring the counter to 140. -/
theorem sint_eq_maxPrio_iff {count : ℤ} {n : ℕ} (h : -2 ^ 31 ≤ count ∧ count < 2 ^ 31)
    (hn : n ≤ maxPrio) : CInt.sint 32 (count + n) = maxPrio ↔ count + n = maxPrio := by
  rw [CInt.sint, Int.bmod_def]
  simp only [maxPrio] at hn ⊢
  split <;> omega

/-- **One trip** is that of the loop with an unbounded counter. -/
theorem passInt_eq {s : Sched α} (hcount : s.CountInt) : (passInt prio s).2 = pass prio s := by
  rw [passInt, pass]
  by_cases hflag : s.flag = true
  · have hself : CInt.sint 32 s.count = s.count :=
      CInt.sint_eq (by have := hcount.1; omega) (by have := hcount.2; omega)
    have hloop := forLoopInt_eq prio (maxPrio - s.markedPrior) s
    rw [hself] at hloop
    rw [if_pos hflag, if_pos hflag, hloop]
    rcases forLoop_cases prio (maxPrio - s.markedPrior) s with ⟨q, -, -, -, -, heq⟩ | ⟨-, heq⟩
    · rw [heq]
      rfl
    · have hiff := sint_eq_maxPrio_iff hcount (Nat.sub_le maxPrio s.markedPrior)
      rw [heq]
      by_cases hfull : s.count + ↑(maxPrio - s.markedPrior) = (maxPrio : ℤ)
      · have hwrap := hiff.mpr hfull
        rw [hfull] at hwrap
        simp only [Jump.wrapCount, reset, hwrap, hfull, if_true]
      · have hwrap := mt hiff.mp hfull
        simp only [Jump.wrapCount, reset, hwrap, hfull, if_false]
  · rw [if_neg hflag, if_neg hflag]
    by_cases hq : s.Eligible s.markedPrior
    · rw [if_pos hq, if_pos hq]
    · rw [if_neg hq, if_neg hq]

/-- A trip resets the slot array at most once, and a trip without a scan does not. -/
theorem resets_passInt_le (s : Sched α) : (passInt prio s).1 ≤ if s.flag then 1 else 0 := by
  rw [passInt]
  by_cases hflag : s.flag = true
  · rw [if_pos hflag, if_pos hflag]
    split
    · exact Nat.zero_le 1
    · split
      · exact le_rfl
      · exact le_rfl
  · rw [if_neg hflag, if_neg hflag]
    split
    · exact le_rfl
    · exact le_rfl

/-- A jump leaves an `int` in the counter. -/
theorem countInt_goto {s t : Sched α} (hcount : s.CountInt) (h : pass prio s = .goto t) :
    t.CountInt := by
  rw [pass] at h
  split at h
  · split at h
    · cases h
    · split at h
      · cases h
      · obtain rfl := Jump.goto.inj h
        exact (by decide : -2 ^ 31 ≤ (0 : ℤ) ∧ (0 : ℤ) < 2 ^ 31)
  · split at h
    · cases h
    · obtain rfl := Jump.goto.inj h
      exact hcount

/-! ## The trips -/

section

variable {prio}

/-- **The loop with an `int`** returns what the loop with an unbounded counter returns. -/
theorem getMlqProcInt_eq {s : Sched α} (hcount : s.CountInt) (n : ℕ) :
    (getMlqProcInt prio n s).map Prod.snd = getMlqProcFuel prio n s := by
  induction n generalizing s with
  | zero => rfl
  | succ n ih =>
      rw [getMlqProcInt, getMlqProcFuel, passInt_eq prio hcount]
      cases hpass : pass prio s with
      | ret proc t => rfl
      | goto t =>
          simp only [Option.map_map]
          exact ih (countInt_goto prio hcount hpass)

/-- More trips change nothing after a return. -/
theorem getMlqProcInt_mono {s : Sched α} {r : ℕ × Option α × Sched α} {m n : ℕ} (hle : m ≤ n)
    (h : getMlqProcInt prio m s = some r) : getMlqProcInt prio n s = some r := by
  induction m generalizing s r n with
  | zero => cases h
  | succ m ih =>
      cases n with
      | zero => cases hle
      | succ n =>
          rw [getMlqProcInt] at h ⊢
          cases hpass : (passInt prio s).2 with
          | ret proc t => simpa [hpass] using h
          | goto t =>
              simp only [hpass] at h ⊢
              obtain ⟨r', hr', rfl⟩ := Option.map_eq_some_iff.mp h
              rw [ih (Nat.le_of_succ_le_succ hle) hr', Option.map_some]

/-- Each trip resets at most once. -/
theorem resets_le {s : Sched α} {k n : ℕ} {r : Option α × Sched α}
    (h : getMlqProcInt prio n s = some (k, r)) : k ≤ n := by
  induction n generalizing s k r with
  | zero => cases h
  | succ n ih =>
      have hone : (passInt prio s).1 ≤ 1 := by
        have hle := resets_passInt_le prio s
        split at hle <;> omega
      rw [getMlqProcInt] at h
      split at h
      · obtain ⟨rfl, -⟩ := Prod.mk.inj (Option.some.inj h)
        omega
      · obtain ⟨⟨k', r'⟩, hr', heq⟩ := Option.map_eq_some_iff.mp h
        obtain ⟨rfl, -⟩ := Prod.mk.inj heq
        have hrest := ih hr'
        simp only
        omega

variable (prio) in
/-- A call that starts with a scan makes two trips at most, and so resets twice at most. -/
theorem getMlqProcInt_scan {s : Sched α} (hcount : s.CountInt) (hmark : s.markedPrior < maxPrio)
    (hflag : s.flag = true) :
    ∃ k r, getMlqProcInt prio 2 s = some (k, r) ∧ k ≤ 2 ∧ GetCase prio s r := by
  obtain ⟨r, hr, hcase⟩ := getMlqProcFuel_scan prio hflag hmark 0
  rw [← getMlqProcInt_eq hcount] at hr
  obtain ⟨⟨k, r'⟩, hrun, rfl⟩ := Option.map_eq_some_iff.mp hr
  exact ⟨k, r', hrun, resets_le hrun, hcase⟩

variable (prio) in
/-- **Every call** makes three trips at most, and resets twice at most: a trip that only
raises `flag` resets nothing. -/
theorem getMlqProcInt_three {s : Sched α} (hcount : s.CountInt)
    (hmark : s.markedPrior < maxPrio) :
    ∃ k r, getMlqProcInt prio 3 s = some (k, r) ∧ k ≤ 2 ∧ GetCase prio s r := by
  by_cases hflag : s.flag = true
  · obtain ⟨k, r, hrun, hk, hcase⟩ := getMlqProcInt_scan prio hcount hmark hflag
    exact ⟨k, r, getMlqProcInt_mono (by decide) hrun, hk, hcase⟩
  · have hpass := passInt_eq prio hcount
    have hnone := resets_passInt_le prio s
    rw [if_neg hflag] at hnone
    rw [pass, if_neg hflag] at hpass
    by_cases hq : s.Eligible s.markedPrior
    · rw [if_pos hq] at hpass
      refine ⟨(passInt prio s).1, _, ?_, by omega, .stay (by simpa using hflag) hq⟩
      rw [getMlqProcInt, hpass]
    · rw [if_neg hq] at hpass
      obtain ⟨k, r, hrun, hk, hcase⟩ :=
        getMlqProcInt_scan prio (s := { s with flag := true }) hcount hmark rfl
      refine ⟨(passInt prio s).1 + k, r, ?_, by omega, hcase.of_flag hq⟩
      rw [getMlqProcInt, hpass]
      simp only [hrun, Option.map_some]

/-! ## What a call leaves -/

/-- The mark stays in the range of the arrays. -/
theorem GetCase.mark_lt {s : Sched α} {r : Option α × Sched α} (h : GetCase prio s r)
    (hmark : s.markedPrior < maxPrio) : r.2.markedPrior < maxPrio := by
  cases h with
  | stay _ _ => exact hmark
  | scan q _ _ hlt _ _ => exact hlt
  | wrap q _ _ hlt _ _ => exact hlt
  | null _ _ => exact Nat.succ_pos 139

/-- A process that is returned was dequeued from a queue that was not empty. -/
theorem GetCase.dequeued {s : Sched α} {r : Option α × Sched α} (h : GetCase prio s r)
    (hmark : s.markedPrior < maxPrio) {p : α} (hp : r.1 = some p) :
    ∃ q < maxPrio, (s.mlqReadyQueue q).size ≠ 0 ∧
      (s.mlqReadyQueue q).dequeue prio = (some p, r.2.mlqReadyQueue q) := by
  have htaken : ∀ q, ((s.mlqReadyQueue q).dequeue prio).1 = some p →
      (s.mlqReadyQueue q).dequeue prio =
        (some p, Function.update s.mlqReadyQueue q ((s.mlqReadyQueue q).dequeue prio).2 q) := by
    intro q hq
    rw [Function.update_self, ← hq]
  cases h with
  | stay _ hq => exact ⟨s.markedPrior, hmark, hq.1, htaken _ hp⟩
  | scan q _ _ hlt hq _ => exact ⟨q, hlt, hq.1, htaken q hp⟩
  | wrap q _ _ hlt hq _ => exact ⟨q, hlt, hq, htaken q hp⟩
  | null _ _ => cases hp

end

/-- **`get_mlq_proc` always ends**: from every state with an `int` in `count` and the mark in
range it returns, after two resets of the slot array at most; a process that it returns
comes from a queue that is not empty, and the mark is in range again. -/
theorem getMlqProcInt_ends {s : Sched α} (hcount : s.CountInt)
    (hmark : s.markedPrior < maxPrio) :
    ∃ k proc t, (∀ n, 3 ≤ n → getMlqProcInt prio n s = some (k, proc, t)) ∧ k ≤ 2 ∧
      (∀ p, proc = some p → ∃ q < maxPrio, (s.mlqReadyQueue q).size ≠ 0 ∧
        (s.mlqReadyQueue q).dequeue prio = (some p, t.mlqReadyQueue q)) ∧
      t.markedPrior < maxPrio := by
  obtain ⟨k, r, hrun, hk, hcase⟩ := getMlqProcInt_three prio hcount hmark
  refine ⟨k, r.1, r.2, ?_, hk, ?_, hcase.mark_lt hmark⟩
  · intro n hn
    exact getMlqProcInt_mono hn hrun
  · intro p hp
    exact hcase.dequeued hmark hp

/-- Everything is empty, the mark is at the last queue, and `count` is not at 0. -/
def lastMarked : Sched ℕ :=
  { (initScheduler : Sched ℕ) with flag := false, markedPrior := 139, count := 7 }

/-- From there the bound of two resets is reached. -/
theorem getMlqProcInt_ends_lastMarked :
    ∃ proc t, (∀ n, 3 ≤ n → getMlqProcInt id n lastMarked = some (2, proc, t)) ∧
      t.markedPrior < maxPrio := by
  obtain ⟨k, proc, t, hrun, -, -, hmark⟩ := getMlqProcInt_ends id (s := lastMarked) (by decide)
    (by decide)
  have htwo : (getMlqProcInt id 3 lastMarked).map Prod.fst = some 2 := by decide +kernel
  rw [hrun 3 le_rfl] at htwo
  obtain rfl := Option.some.inj htwo
  exact ⟨proc, t, hrun, hmark⟩

end SimOs.Sched
