import SimOs.Sched.Quota

/-!
# When the scheduler returns `NULL`

`get_mlq_proc` decides with `count` whether a scan that missed has looked at all
queues.  It has if the scan began at the top, but then it may also have passed over
queue 0 because its quota was used up, and the renewed quotas are not tried: the
call returns `NULL` although queue 0 is not empty.  Everywhere else the second scan
follows.  `getMlqProc_null_iff` is the exact boundary.

## Main definitions

* `TopExhausted`: the one corner in which a waiting process is missed.
* `getMlqProc_null_iff`: outside it, and only there, `NULL` means that all ready
  queues are empty.
-/

namespace SimOs.Sched

universe u
variable {α : Type u} {prio : α → ℕ}

/-- All 140 ready queues are empty. -/
def AllEmpty (s : Sched α) : Prop := ∀ q, q < maxPrio → (s.mlqReadyQueue q).size = 0

instance (s : Sched α) : Decidable s.AllEmpty := Nat.decidableBallLT maxPrio _

/-- The mark is at priority 0, whose queue is not empty but has used up its quota,
and no other queue holds a process. -/
structure TopExhausted (s : Sched α) : Prop where
  flag : s.flag = false
  markedPrior : s.markedPrior = 0
  slot : s.slot 0 = maxPrio
  top : (s.mlqReadyQueue 0).size ≠ 0
  others : ∀ q, 0 < q → q < maxPrio → (s.mlqReadyQueue q).size = 0

variable (prio) in
/-- A hit of either scan returns a process. -/
theorem serve_ne_none {s : Sched α} {q : ℕ} (hq : (s.mlqReadyQueue q).size ≠ 0) :
    (s.serve prio q).1 ≠ none := by
  obtain ⟨p, hp⟩ := Queue.dequeue_isSome prio hq
  simp only [serve, takeFrom, hp, ne_eq, reduceCtorEq, not_false_eq_true]

/-- In the corner, the scan misses and `count` stops the second one. -/
theorem TopExhausted.getMlqProc_eq_none {s : Sched α} (h : s.TopExhausted)
    (hs : s.Serving) : (getMlqProc prio s).1 = none := by
  have hno : ∀ q, q < maxPrio → ¬ s.Eligible q := by
    intro q hq hel
    rcases Nat.eq_zero_or_pos q with rfl | hpos
    · have := hel.2
      rw [h.slot] at this
      omega
    · exact hel.1 (h.others q hpos hq)
  have hcase := getMlqProc_cases prio hs.mark_lt
  generalize getMlqProc prio s = r at hcase ⊢
  cases hcase with
  | stay _ hq => exact absurd hq (hno _ hs.mark_lt)
  | scan q _ _ hlt hq _ => exact absurd hq (hno q hlt)
  | wrap q _ hcount _ _ _ =>
      refine absurd ?_ hcount
      rw [hs.count, h.markedPrior]
      simp
  | null _ _ => rfl

/-- A `NULL` outside the corner: every queue was looked at with quota left. -/
theorem Started.allEmpty_of_none {s : Sched α} (h : s.Started)
    (hcorner : ¬ s.TopExhausted) (hnone : (getMlqProc prio s).1 = none) : s.AllEmpty := by
  have hcase := getMlqProc_cases prio (Counters.mark_lt (Or.inr h))
  generalize getMlqProc prio s = r at hcase hnone
  cases hcase with
  | stay _ hq => exact absurd hnone (serve_ne_none prio hq.1)
  | scan q _ _ _ hq _ => exact absurd hnone (serve_ne_none prio hq.1)
  | wrap q _ _ _ hq _ => exact absurd hnone (serve_ne_none prio (s := s.reset) hq)
  | null hmiss hnull =>
      rcases hnull with hcount | hempty
      · rcases h with h | h
        · -- `count` was left at 140 by the last `NULL`, so this scan ends at 280.
          rw [h.count, h.markedPrior] at hcount
          simp [maxPrio] at hcount
        · have hmark : s.markedPrior = 0 := by
            rw [h.count] at hcount
            have := h.mark_lt
            omega
          intro q hq
          by_contra hne
          have hq0 : q = 0 := by
            by_contra hpos
            exact hmiss q (by omega) hq ((h.eligible_past (by omega) hq).mpr hne)
          subst hq0
          refine hcorner ⟨h.flag, hmark, ?_, hne, fun r hpos hr => ?_⟩
          · have hle := h.slot_le 0 (by omega)
            have hge : ¬ s.slot 0 < (maxPrio : ℤ) - (0 : ℕ) :=
              fun hlt => hmiss 0 (by omega) hq ⟨hne, hlt⟩
            simp only [Nat.cast_zero, sub_zero] at hle hge
            omega
          · by_contra hr0
            exact hmiss r (by omega) hr ((h.eligible_past (by omega) hr).mpr hr0)
      · exact hempty

/-- **When `NULL` means that nothing is ready**: in every state reached with at least
one call of `get_proc`, exactly outside the corner `TopExhausted`. -/
theorem getProc_null_iff {s : Sched α} {calls : List (Call α)}
    (hrun : (callSystem prio).run initScheduler calls = some s)
    (hget : Call.getProc ∈ calls) :
    ((getProc prio s).1 = none → s.AllEmpty) ↔ ¬ s.TopExhausted := by
  have hstarted := run_started hrun hget
  refine ⟨?_, fun hcorner => hstarted.allEmpty_of_none hcorner⟩
  intro himp hcorner
  have hserving : s.Serving := by
    apply hstarted.resolve_left
    intro hidle
    exact absurd (hidle.flag.symm.trans hcorner.flag) (by simp)
  have hempty := himp (hcorner.getMlqProc_eq_none hserving)
  exact hcorner.top (hempty 0 (by decide))

theorem getProc_null_iff_first_call :
    ((getProc id ((getProc id (initScheduler : Sched ℕ)).2)).1 = none →
      ((getProc id (initScheduler : Sched ℕ)).2).AllEmpty) ↔
      ¬ ((getProc id (initScheduler : Sched ℕ)).2).TopExhausted :=
  getProc_null_iff rfl (List.mem_singleton_self _)

/-- One process of priority 0 that uses up the quota of its queue: every slot it is
fetched, runs, and is put back. -/
def soleTopCalls : List (Call ℕ) :=
  [.addProc 0, .getProc] ++ (List.replicate maxPrio [Call.getProc, Call.putProc 0]).flatten

/-- After it, `get_proc` returns `NULL` while the process waits in queue 0. -/
theorem getProc_null_soleTop :
    ∃ s, (callSystem id).run initScheduler soleTopCalls = some s ∧
      Call.getProc ∈ soleTopCalls ∧ (getProc id s).1 = none ∧ ¬ s.AllEmpty := by
  have hrun : (((callSystem id).run initScheduler soleTopCalls).any fun s =>
      (getProc id s).1 = none ∧ (s.mlqReadyQueue 0).size ≠ 0) = true := by decide +kernel
  obtain ⟨s, hs, hfound⟩ := (Option.any_eq_true _ _).mp hrun
  obtain ⟨hnone, htop⟩ := of_decide_eq_true hfound
  exact ⟨s, hs, by decide, hnone, fun hempty => htop (hempty 0 (by decide))⟩

end SimOs.Sched
