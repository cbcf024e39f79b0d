import SimOs.Sched.Quota
import Mathlib.Algebra.BigOperators.Intervals
import Mathlib.Algebra.Order.BigOperators.Group.Finset

/-!
# How long a ready queue can be passed over

A queue that holds a process is passed over while the round serves the quotas of
the queues before it.  `rank p` is the number of dequeues the current round and, if
the mark is already past `p`, the next one can still spend elsewhere before `p` must
be served; it depends on the counters alone, so nothing that happens to the queues
between two calls can raise it, and every call that does not serve `p` lowers it.

## Main definitions

* `rank p`: how many more calls queue `p` can be passed over.
* `waitSystem p`: runs of `get_mlq_proc` that pass over the non-empty queue `p`,
  with arbitrary changes of the queues in between.
* `bounded_waiting`: such a run has at most 9870 calls.
-/

namespace SimOs.Sched

universe u
variable {α : Type u} {prio : α → ℕ}

/-- The quota of priority `q`, `MAX_PRIO - q`. -/
def quota (q : ℕ) : ℕ := maxPrio - q

/-- The quotas of the priorities from `a` up to, not including, `b`. -/
def quotas (a b : ℕ) : ℕ := ∑ q ∈ Finset.Ico a b, quota q

theorem quotas_head {a b : ℕ} (h : a < b) : quotas a b = quota a + quotas (a + 1) b :=
  Finset.sum_eq_sum_Ico_succ_bot h quota

theorem quotas_anti {a a' : ℕ} (h : a ≤ a') (b : ℕ) : quotas a' b ≤ quotas a b :=
  Finset.sum_le_sum_of_subset (Finset.Ico_subset_Ico_left h)

theorem quotas_append {a b c : ℕ} (hab : a ≤ b) (hbc : b ≤ c) :
    quotas a b + quotas b c = quotas a c :=
  Finset.sum_Ico_consecutive quota hab hbc

/-- A full round dequeues `140 + 139 + ... + 1` processes. -/
theorem quotas_round : quotas 0 maxPrio = 9870 := by decide +kernel

/-- What the marked queue has left of its quota. -/
def left (s : Sched α) : ℕ := (maxPrio - s.markedPrior - s.slot s.markedPrior).toNat

/-- How many more calls can pass over queue `p`. -/
def rank (p : ℕ) (s : Sched α) : ℕ :=
  if s.flag then (if s.count = 0 then 1 else 0) + quotas 0 p
  else if s.markedPrior < p ∨ (s.markedPrior = p ∧ s.slot p < maxPrio - p) then
    s.left + quotas (s.markedPrior + 1) p
  else s.left + quotas (s.markedPrior + 1) maxPrio + quotas 0 p

variable (prio) in
/-- The first dequeue from `q` leaves one less than its quota. -/
theorem left_serve {s : Sched α} {q : ℕ} (hq : q < maxPrio) (hzero : s.slot q = 0) :
    (s.serve prio q).2.left + 1 = quota q := by
  simp only [left, serve, slot_takeFrom, Function.update_self, hzero, quota]
  omega

/-- Serving `q` before `p`, for the first time in its round. -/
theorem rank_serve_before {s : Sched α} {p q : ℕ} (hq : q < maxPrio) (hzero : s.slot q = 0)
    (hqp : q < p) : rank p (s.serve prio q).2 + 1 = quotas q p := by
  have hmark : (s.serve prio q).2.markedPrior = q := rfl
  have hflag : (s.serve prio q).2.flag = false := rfl
  rw [rank, hflag, hmark, if_neg (by simp), if_pos (Or.inl hqp), quotas_head hqp,
    ← left_serve prio hq hzero]
  omega

/-- Serving `q` after `p`, for the first time in its round. -/
theorem rank_serve_after {s : Sched α} {p q : ℕ} (hq : q < maxPrio) (hzero : s.slot q = 0)
    (hpq : p < q) : rank p (s.serve prio q).2 + 1 = quotas q maxPrio + quotas 0 p := by
  have hmark : (s.serve prio q).2.markedPrior = q := rfl
  have hflag : (s.serve prio q).2.flag = false := rfl
  rw [rank, hflag, hmark, if_neg (by simp), if_neg (by omega), quotas_head hq,
    ← left_serve prio hq hzero]
  omega

variable (prio) in
/-- Staying at the marked queue spends one of what it has left. -/
theorem left_takeFrom {s : Sched α} (h : s.Serving) (hq : s.Eligible s.markedPrior) :
    (s.takeFrom prio s.markedPrior).2.left + 1 = s.left := by
  have hslot := hq.2
  have hnonneg := h.slot_nonneg s.markedPrior le_rfl
  simp only [left, slot_takeFrom, markedPrior_takeFrom, Function.update_self]
  omega

/-- A queue whose size a call does not change is not the one it dequeued from. -/
theorem ne_of_size_eq {s : Sched α} {p q : ℕ} (hp : (s.mlqReadyQueue p).size ≠ 0)
    (h : ((s.takeFrom prio q).2.mlqReadyQueue p).size = (s.mlqReadyQueue p).size) : q ≠ p := by
  rintro rfl
  have := Queue.size_dequeue prio hp
  rw [mlqReadyQueue_takeFrom, Function.update_self] at h
  omega

/-! ## A call that passes over queue `p` -/

/-- After a `NULL` the quotas are renewed. -/
theorem rank_renewed (s : Sched α) (p : ℕ) :
    rank p { s.reset with count := maxPrio } = quotas 0 p := by
  simp [rank, reset, maxPrio]

/-- Before the first call every quota counts as used up: the call renews them. -/
theorem Fresh.rank_lt {s : Sched α} (h : s.Fresh) {p : ℕ} {r : Option α × Sched α}
    (hcase : GetCase prio s r) : rank p r.2 + 1 ≤ rank p s := by
  cases hcase with
  | stay hflag _ => exact absurd (h.flag.symm.trans hflag) (by simp)
  | scan q _ _ hq hel _ => exact absurd hel (h.not_eligible hq)
  | wrap q _ hcount _ _ _ =>
      refine absurd ?_ hcount
      rw [h.count, h.markedPrior]
      simp
  | null _ _ =>
      rw [rank_renewed, rank, h.flag, if_pos rfl, h.count, if_pos rfl]
      omega

/-- When the round begins `p` is eligible, so the scan hits before it. -/
theorem Idle.rank_lt {s : Sched α} (h : s.Idle) {p : ℕ} (hlt : p < maxPrio)
    (hp : (s.mlqReadyQueue p).size ≠ 0) {r : Option α × Sched α} (hcase : GetCase prio s r)
    (hpass : (r.2.mlqReadyQueue p).size = (s.mlqReadyQueue p).size) :
    rank p r.2 + 1 ≤ rank p s := by
  have hel : s.Eligible p := (h.eligible_iff hlt).mpr hp
  have hrank : quotas 0 p ≤ rank p s := by
    rw [rank, h.flag, if_pos rfl]
    omega
  cases hcase with
  | stay hflag _ => exact absurd (h.flag.symm.trans hflag) (by simp)
  | scan q _ _ hq _ hfirst =>
      have hne := ne_of_size_eq hp hpass
      have hle : q ≤ p := by
        by_contra hgt
        exact hfirst p (by rw [h.markedPrior]; omega) (by omega) hel
      rw [rank_serve_before hq (h.slot q hq) (by omega)]
      exact (quotas_anti (Nat.zero_le q) p).trans hrank
  | wrap q hmiss _ _ _ _ => exact absurd hel (hmiss p (by rw [h.markedPrior]; omega) hlt)
  | null hmiss _ => exact absurd hel (hmiss p (by rw [h.markedPrior]; omega) hlt)

/-- In the middle of a round, before the turn of `p` or in it. -/
theorem Serving.rank_lt_before {s : Sched α} (h : s.Serving) {p : ℕ} (hlt : p < maxPrio)
    (hp : (s.mlqReadyQueue p).size ≠ 0) {r : Option α × Sched α} (hcase : GetCase prio s r)
    (hpass : (r.2.mlqReadyQueue p).size = (s.mlqReadyQueue p).size)
    (hturn : s.markedPrior < p ∨ (s.markedPrior = p ∧ s.slot p < maxPrio - p)) :
    rank p r.2 + 1 ≤ rank p s := by
  have hrank : rank p s = s.left + quotas (s.markedPrior + 1) p := by
    rw [rank, h.flag, if_neg (by simp), if_pos hturn]
  have hel : s.Eligible p := by
    rcases hturn with hm | ⟨_, hslot⟩
    · exact (h.eligible_past hm hlt).mpr hp
    · exact ⟨hp, hslot⟩
  cases hcase with
  | stay _ hq =>
      have hne := ne_of_size_eq hp hpass
      have hlow : rank p (s.takeFrom prio s.markedPrior).2 =
          (s.takeFrom prio s.markedPrior).2.left + quotas (s.markedPrior + 1) p := by
        rw [rank, flag_takeFrom, h.flag, if_neg (by simp), markedPrior_takeFrom,
          if_pos (Or.inl (by omega))]
      have := left_takeFrom prio h hq
      omega
  | scan q hwhy hle hq hq' hfirst =>
      have hne := ne_of_size_eq hp hpass
      have hmiss : ¬ s.Eligible s.markedPrior := hwhy.resolve_left (by simp [h.flag])
      have hqm : s.markedPrior ≠ q := fun he => hmiss (he ▸ hq')
      have hqp : q < p := by
        by_contra hgt
        exact hfirst p (by omega) (by omega) hel
      rw [rank_serve_before hq (h.slot_past q (by omega) hq) hqp, hrank]
      have := quotas_anti (show s.markedPrior + 1 ≤ q by omega) p
      omega
  | wrap q hmiss _ _ _ _ => exact absurd hel (hmiss p (by omega) hlt)
  | null hmiss _ => exact absurd hel (hmiss p (by omega) hlt)

/-- In the middle of a round, after the turn of `p`. -/
theorem Serving.rank_lt_after {s : Sched α} (h : s.Serving) {p : ℕ} (hlt : p < maxPrio)
    (hp : (s.mlqReadyQueue p).size ≠ 0) {r : Option α × Sched α} (hcase : GetCase prio s r)
    (hpass : (r.2.mlqReadyQueue p).size = (s.mlqReadyQueue p).size)
    (hturn : ¬ (s.markedPrior < p ∨ (s.markedPrior = p ∧ s.slot p < maxPrio - p))) :
    rank p r.2 + 1 ≤ rank p s := by
  have hrank : rank p s =
      s.left + quotas (s.markedPrior + 1) maxPrio + quotas 0 p := by
    rw [rank, h.flag, if_neg (by simp), if_neg hturn]
  cases hcase with
  | stay _ hq =>
      have hne := ne_of_size_eq hp hpass
      have hlow : rank p (s.takeFrom prio s.markedPrior).2 =
          (s.takeFrom prio s.markedPrior).2.left + quotas (s.markedPrior + 1) maxPrio +
            quotas 0 p := by
        rw [rank, flag_takeFrom, h.flag, if_neg (by simp), markedPrior_takeFrom,
          if_neg (by omega)]
      have := left_takeFrom prio h hq
      omega
  | scan q hwhy hle hq hq' _ =>
      have hne := ne_of_size_eq hp hpass
      have hmiss : ¬ s.Eligible s.markedPrior := hwhy.resolve_left (by simp [h.flag])
      have hqm : s.markedPrior ≠ q := fun he => hmiss (he ▸ hq')
      rw [rank_serve_after hq (h.slot_past q (by omega) hq) (by omega), hrank]
      have := quotas_anti (show s.markedPrior + 1 ≤ q by omega) maxPrio
      omega
  | wrap q _ _ hq _ hfirst =>
      have hne := ne_of_size_eq (s := s.reset) hp hpass
      have hle : q ≤ p := by
        by_contra hgt
        exact hp (hfirst p (by omega))
      rw [rank_serve_before hq rfl (by omega), hrank]
      have := quotas_anti (Nat.zero_le q) p
      omega
  | null _ hnull =>
      -- The early `NULL`: the mark is at 0, so `p` is the exhausted queue 0.
      have hmark : s.markedPrior = 0 := by
        rcases hnull with hcount | hempty
        · rw [h.count] at hcount
          have := h.mark_lt
          omega
        · exact absurd (hempty p hlt) hp
      have hrest : 0 < quotas (s.markedPrior + 1) maxPrio := by
        rw [hmark]
        decide +kernel
      rw [rank_renewed, hrank]
      omega

/-- **One call** that passes over the non-empty queue `p` lowers its rank. -/
theorem rank_getMlqProc {s : Sched α} (h : s.Counters) {p : ℕ} (hlt : p < maxPrio)
    (hp : (s.mlqReadyQueue p).size ≠ 0)
    (hpass : ((getMlqProc prio s).2.mlqReadyQueue p).size = (s.mlqReadyQueue p).size) :
    rank p (getMlqProc prio s).2 + 1 ≤ rank p s := by
  have hcase := getMlqProc_cases prio h.mark_lt
  rcases h with h | h | h
  · exact h.rank_lt hcase
  · exact h.rank_lt hlt hp hcase hpass
  · by_cases hturn : s.markedPrior < p ∨ (s.markedPrior = p ∧ s.slot p < maxPrio - p)
    · exact h.rank_lt_before hlt hp hcase hpass hturn
    · exact h.rank_lt_after hlt hp hcase hpass hturn

/-- The rank never exceeds a full round. -/
theorem rank_le {s : Sched α} (h : s.Counters) {p : ℕ} (hlt : p < maxPrio) :
    rank p s ≤ 9870 := by
  have hsplit := quotas_append (Nat.zero_le p) hlt.le
  have hquota := quotas_head hlt
  have hpos : 0 < quota p := by simp only [quota]; omega
  rw [quotas_round] at hsplit
  rcases h with h | h | h
  · rw [rank, h.flag, if_pos rfl, h.count, if_pos rfl]
    omega
  · rw [rank, h.flag, if_pos rfl, h.count, if_neg (by decide)]
    omega
  · have hleft : s.left ≤ quota s.markedPrior := by
      have := h.slot_nonneg s.markedPrior le_rfl
      simp only [left, quota]
      omega
    have hround := quotas_append (Nat.zero_le s.markedPrior) h.mark_lt.le
    have hmark := quotas_head h.mark_lt
    rw [quotas_round] at hround
    rw [rank, h.flag, if_neg (by simp)]
    split
    · next hturn =>
        have hle : quotas (s.markedPrior + 1) p ≤ quotas (s.markedPrior + 1) maxPrio :=
          Finset.sum_le_sum_of_subset (Finset.Ico_subset_Ico_right hlt.le)
        omega
    · next hturn =>
        have hle : quotas 0 p ≤ quotas 0 s.markedPrior :=
          Finset.sum_le_sum_of_subset (Finset.Ico_subset_Ico_right (by omega))
        omega

/-- Runs of `get_mlq_proc` that pass over queue `p`.  A label is what the ready queues
and the running list have become by the time of the call; the call is a step only if
queue `p` is not empty then and is not the one dequeued from. -/
def waitSystem (prio : α → ℕ) (p : ℕ) : Lts (Sched α) ((ℕ → Queue α) × Queue α) where
  init s := (callSystem prio).Reachable s
  step s queues :=
    let s' := { s with mlqReadyQueue := queues.1, runningList := queues.2 }
    let t := (getMlqProc prio s').2
    if (queues.1 p).size ≠ 0 ∧ (t.mlqReadyQueue p).size = (queues.1 p).size then some t
    else none

theorem waitSystem_step {s t : Sched α} {p : ℕ} {queues : (ℕ → Queue α) × Queue α}
    (hlt : p < maxPrio) (h : s.Counters) (hstep : (waitSystem prio p).step s queues = some t) :
    t.Counters ∧ rank p t + 1 ≤ rank p s := by
  have h' : Counters { s with mlqReadyQueue := queues.1, runningList := queues.2 } :=
    h.congr rfl rfl rfl rfl
  simp only [waitSystem] at hstep
  split at hstep
  · next hcond =>
      obtain rfl := Option.some.inj hstep
      exact ⟨Or.inr h'.started_getMlqProc, rank_getMlqProc h' hlt hcond.1 hcond.2⟩
  · exact absurd hstep (by simp)

/-- **Bounded waiting**: from every reachable state, no more than 9870 consecutive
calls pass over a queue that is never empty. -/
theorem bounded_waiting {s t : Sched α} (hs : (callSystem prio).Reachable s) {p : ℕ}
    (hlt : p < maxPrio) {calls : List ((ℕ → Queue α) × Queue α)}
    (hrun : (waitSystem prio p).run s calls = some t) : calls.length ≤ 9870 := by
  have hcounters := reachable_counters hs
  exact ((waitSystem prio p).length_le_of_measure (rank p)
    (fun _ _ _ h hstep => waitSystem_step hlt h hstep) hrun hcounters).trans
    (rank_le hcounters hlt)

/-- One process of priority 0 in queue 0, one of priority 5 in queue 5. -/
def twoQueues : ℕ → Queue ℕ := fun q =>
  if q = 0 ∨ q = 5 then Queue.nil.enqueue q else Queue.nil

/-- Two calls that pass over queue 5: the first returns `NULL`, the second takes from
queue 0. -/
theorem bounded_waiting_two :
    ((waitSystem id 5).run initScheduler [(twoQueues, Queue.nil), (twoQueues, Queue.nil)]).isSome
      ∧ [(twoQueues, (Queue.nil : Queue ℕ)), (twoQueues, Queue.nil)].length ≤ 9870 := by
  have hsome : ((waitSystem id 5).run initScheduler
      [(twoQueues, Queue.nil), (twoQueues, Queue.nil)]).isSome := by decide +kernel
  obtain ⟨t, ht⟩ := Option.isSome_iff_exists.mp hsome
  exact ⟨hsome, bounded_waiting (Lts.Reachable.of_init rfl) (by decide) ht⟩

end SimOs.Sched
