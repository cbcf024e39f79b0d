import SimOs.Sched.Mlq
import Mathlib.Tactic.Common

/-!
# The counters between two calls

Between two calls of the interface the slot counters, the mark, `flag` and `count`
are in one of three shapes, whatever the queues hold: as `init_scheduler` left
them, as a `NULL` return leaves them, or in the middle of a round.  The shapes say
nothing about the queues, so additions and removals cannot leave them, and
`get_mlq_proc` moves only between them.

## Main definitions

* `Fresh`, `Idle`, `Serving`: the three shapes.
* `Started`: at least one call of `get_mlq_proc` has been made.
* `reachable_counters`, `run_started`: every reachable state has one of the shapes.
-/

namespace SimOs.Sched

universe u
variable {α : Type u} {prio : α → ℕ}

/-- The counters after `init_scheduler`: every quota counts as used up. -/
structure Fresh (s : Sched α) : Prop where
  flag : s.flag = true
  markedPrior : s.markedPrior = 0
  count : s.count = 0
  slot : ∀ q, q < maxPrio → s.slot q = maxPrio - q

/-- The counters after a call returned `NULL`. -/
structure Idle (s : Sched α) : Prop where
  flag : s.flag = true
  markedPrior : s.markedPrior = 0
  count : s.count = maxPrio
  slot : ∀ q, q < maxPrio → s.slot q = 0

/-- The counters after a call returned a process: the queues past the mark have not
been served in this round. -/
structure Serving (s : Sched α) : Prop where
  flag : s.flag = false
  mark_lt : s.markedPrior < maxPrio
  count : s.count = 0
  slot_nonneg : ∀ q, q ≤ s.markedPrior → 0 ≤ s.slot q
  slot_le : ∀ q, q ≤ s.markedPrior → s.slot q ≤ maxPrio - q
  slot_past : ∀ q, s.markedPrior < q → q < maxPrio → s.slot q = 0

/-- The counters once `get_mlq_proc` has been called. -/
def Started (s : Sched α) : Prop := s.Idle ∨ s.Serving

/-- The counters at any time between two calls. -/
def Counters (s : Sched α) : Prop := s.Fresh ∨ s.Started

theorem Fresh.not_eligible {s : Sched α} (h : s.Fresh) {q : ℕ} (hq : q < maxPrio) :
    ¬ s.Eligible q := by
  intro hel
  have := hel.2
  rw [h.slot q hq] at this
  exact lt_irrefl _ this

theorem Idle.eligible_iff {s : Sched α} (h : s.Idle) {q : ℕ} (hq : q < maxPrio) :
    s.Eligible q ↔ (s.mlqReadyQueue q).size ≠ 0 := by
  refine ⟨fun hel => hel.1, fun hne => ⟨hne, ?_⟩⟩
  rw [h.slot q hq]
  omega

/-- Past the mark every non-empty queue still has its whole quota. -/
theorem Serving.eligible_past {s : Sched α} (h : s.Serving) {q : ℕ}
    (hm : s.markedPrior < q) (hq : q < maxPrio) :
    s.Eligible q ↔ (s.mlqReadyQueue q).size ≠ 0 := by
  refine ⟨fun hel => hel.1, fun hne => ⟨hne, ?_⟩⟩
  rw [h.slot_past q hm hq]
  omega

theorem Counters.mark_lt {s : Sched α} (h : s.Counters) : s.markedPrior < maxPrio := by
  have h0 : 0 < maxPrio := by decide
  rcases h with h | h | h
  · rw [h.markedPrior]; exact h0
  · rw [h.markedPrior]; exact h0
  · exact h.mark_lt

/-- The shapes do not look at the queues. -/
theorem Counters.congr {s t : Sched α} (h : s.Counters) (hflag : t.flag = s.flag)
    (hmark : t.markedPrior = s.markedPrior) (hcount : t.count = s.count)
    (hslot : t.slot = s.slot) : t.Counters := by
  obtain ⟨_, _, _, _, _, _⟩ := s
  obtain ⟨_, _, _, _, _, _⟩ := t
  simp only at hflag hmark hcount hslot
  subst hflag hmark hcount hslot
  rcases h with h | h | h
  · exact Or.inl ⟨h.flag, h.markedPrior, h.count, h.slot⟩
  · exact Or.inr (Or.inl ⟨h.flag, h.markedPrior, h.count, h.slot⟩)
  · exact Or.inr (Or.inr ⟨h.flag, h.mark_lt, h.count, h.slot_nonneg, h.slot_le, h.slot_past⟩)

variable (prio) in
/-- Serving a queue with quota left, past which nothing has been served. -/
theorem serving_serve {s : Sched α} {q : ℕ} (hq : q < maxPrio)
    (hslot : s.slot q < maxPrio - q) (hnonneg : ∀ r, r ≤ q → 0 ≤ s.slot r)
    (hle : ∀ r, r ≤ q → s.slot r ≤ maxPrio - r)
    (hpast : ∀ r, q < r → r < maxPrio → s.slot r = 0) : (s.serve prio q).2.Serving where
  flag := rfl
  mark_lt := hq
  count := rfl
  slot_nonneg r hr := by
    simp only [serve, slot_takeFrom]
    rcases eq_or_ne r q with rfl | hne
    · rw [Function.update_self]
      have := hnonneg r le_rfl
      omega
    · rw [Function.update_of_ne hne]
      exact hnonneg r hr
  slot_le r hr := by
    simp only [serve, slot_takeFrom]
    rcases eq_or_ne r q with rfl | hne
    · rw [Function.update_self]
      omega
    · rw [Function.update_of_ne hne]
      exact hle r hr
  slot_past r hr hlt := by
    simp only [serve, slot_takeFrom] at hr ⊢
    rw [Function.update_of_ne (by omega)]
    exact hpast r hr hlt

/-- The second scan serves out of a round that has just begun. -/
theorem serving_serve_reset (s : Sched α) {q : ℕ} (hq : q < maxPrio) :
    (s.reset.serve prio q).2.Serving := by
  refine serving_serve prio hq ?_ (fun _ _ => le_rfl) (fun r hr => ?_) (fun _ _ _ => rfl) <;>
    simp only [reset] <;> omega

theorem idle_reset (s : Sched α) : Idle { s.reset with count := maxPrio } :=
  ⟨rfl, rfl, rfl, fun _ _ => rfl⟩

/-- Staying at the marked queue keeps the round going. -/
theorem Serving.takeFrom {s : Sched α} (h : s.Serving) (hq : s.Eligible s.markedPrior) :
    (s.takeFrom prio s.markedPrior).2.Serving := by
  have hserve := serving_serve prio h.mark_lt hq.2 h.slot_nonneg h.slot_le h.slot_past
  exact ⟨h.flag, h.mark_lt, h.count, hserve.slot_nonneg, hserve.slot_le, hserve.slot_past⟩

/-- Moving on within a round. -/
theorem Serving.serve {s : Sched α} (h : s.Serving) {q : ℕ} (hm : s.markedPrior < q)
    (hq : q < maxPrio) : (s.serve prio q).2.Serving := by
  have hzero := h.slot_past q hm hq
  have hbound : ∀ r, r ≤ q → 0 ≤ s.slot r ∧ s.slot r ≤ maxPrio - r := by
    intro r hr
    rcases Nat.lt_or_ge s.markedPrior r with hpast | hle
    · have := h.slot_past r hpast (by omega)
      omega
    · exact ⟨h.slot_nonneg r hle, h.slot_le r hle⟩
  refine serving_serve prio hq (by omega) (fun r hr => (hbound r hr).1)
    (fun r hr => (hbound r hr).2) ?_
  intro r hr hlt
  exact h.slot_past r (by omega) hlt

/-- **One call of `get_mlq_proc`** leaves the counters idle or in a round. -/
theorem Counters.started_getMlqProc {s : Sched α} (h : s.Counters) :
    (getMlqProc prio s).2.Started := by
  have hcase := getMlqProc_cases prio h.mark_lt
  generalize getMlqProc prio s = r at hcase ⊢
  cases hcase with
  | stay hflag hq =>
      rcases h with h | h | h
      · exact absurd (h.flag.symm.trans hflag) (by simp)
      · exact absurd (h.flag.symm.trans hflag) (by simp)
      · exact Or.inr (h.takeFrom hq)
  | scan q hwhy hle hlt hq _ =>
      rcases h with h | h | h
      · exact absurd hq (h.not_eligible hlt)
      · have hbound : ∀ r, r ≤ q → 0 ≤ s.slot r ∧ s.slot r ≤ maxPrio - r := by
          intro r hr
          rw [h.slot r (by omega)]
          omega
        exact Or.inr (serving_serve prio hlt hq.2 (fun r hr => (hbound r hr).1)
          (fun r hr => (hbound r hr).2) (fun r _ hr => h.slot r hr))
      · have hne : ¬ s.Eligible s.markedPrior := hwhy.resolve_left (by simp [h.flag])
        have hm : s.markedPrior ≠ q := fun he => hne (he ▸ hq)
        exact Or.inr (h.serve (by omega) hlt)
  | wrap q _ _ hlt _ _ => exact Or.inr (serving_serve_reset s hlt)
  | null _ _ => exact Or.inl (idle_reset s)

theorem fresh_initScheduler : (initScheduler : Sched α).Fresh :=
  ⟨rfl, rfl, rfl, fun _ _ => rfl⟩

/-- `put_mlq_proc` leaves everything but the queues alone. -/
theorem putMlqProc_counters {s t : Sched α} {p : α} (h : putMlqProc prio s p = some t) :
    t.flag = s.flag ∧ t.markedPrior = s.markedPrior ∧ t.count = s.count ∧ t.slot = s.slot := by
  obtain ⟨-, rfl⟩ := (putMlqProc_eq_some prio).mp h
  exact ⟨rfl, rfl, rfl, rfl⟩

variable (prio) in
/-- So do `add_proc` and `put_proc`, which are the same code. -/
theorem putProc_counters {s t : Sched α} {p : α} (h : putProc prio s p = some t) :
    t.flag = s.flag ∧ t.markedPrior = s.markedPrior ∧ t.count = s.count ∧ t.slot = s.slot :=
  putMlqProc_counters (s := s.enlistRunning p) h

/-- **One call** of the interface keeps the counters in shape. -/
theorem Counters.call {s t : Sched α} (h : s.Counters) {c : Call α}
    (hc : call prio s c = some t) : t.Counters := by
  cases c with
  | addProc p =>
      obtain ⟨hf, hm, hn, hs⟩ := putProc_counters prio (s := s) (p := p) hc
      exact h.congr hf hm hn hs
  | putProc p =>
      obtain ⟨hf, hm, hn, hs⟩ := putProc_counters prio (s := s) (p := p) hc
      exact h.congr hf hm hn hs
  | getProc =>
      obtain rfl := Option.some.inj hc
      exact Or.inr h.started_getMlqProc

/-- **One call** of the interface does not undo that the scheduler has started. -/
theorem Started.call {s t : Sched α} (h : s.Started) {c : Call α}
    (hc : call prio s c = some t) : t.Started := by
  have hkeep : t.flag = s.flag ∧ t.markedPrior = s.markedPrior ∧ t.count = s.count ∧
      t.slot = s.slot → t.Started := by
    rintro ⟨hf, hm, hn, hs⟩
    rcases (show t.Counters from Counters.congr (Or.inr h) hf hm hn hs) with hfresh | hstarted
    · -- A state with fresh quotas and a fresh `count` has not started.
      rcases h with h | h
      · have := hfresh.count.symm.trans (hn.trans h.count)
        exact absurd this (by decide)
      · exact absurd (hfresh.flag.symm.trans (hf.trans h.flag)) (by simp)
    · exact hstarted
  cases c with
  | addProc p => exact hkeep (putProc_counters prio (s := s) (p := p) hc)
  | putProc p => exact hkeep (putProc_counters prio (s := s) (p := p) hc)
  | getProc =>
      obtain rfl := Option.some.inj hc
      exact Counters.started_getMlqProc (Or.inr h)

/-- **Every reachable state** has its counters in shape. -/
theorem reachable_counters {s : Sched α} (h : (callSystem prio).Reachable s) : s.Counters :=
  h.invariant (P := Counters) (by rintro s rfl; exact Or.inl fresh_initScheduler)
    (fun _ _ _ hs hc => hs.call hc)

/-- **Every run with a `get_proc` in it** ends in a started state. -/
theorem run_started {s : Sched α} {calls : List (Call α)}
    (h : (callSystem prio).run initScheduler calls = some s) (hget : Call.getProc ∈ calls) :
    s.Started := by
  obtain ⟨before, after, rfl⟩ := List.append_of_mem hget
  obtain ⟨u, hu, hrest⟩ := ((callSystem prio).run_append_eq_some).mp h
  have hcounters : u.Counters := reachable_counters ⟨initScheduler, before, rfl, hu⟩
  have hstep : (callSystem prio).step u .getProc = some (getMlqProc prio u).2 := rfl
  rw [(callSystem prio).run_cons_of_step hstep] at hrest
  exact (callSystem prio).run_invariant (P := Started) (fun _ _ _ hs hc => hs.call hc) hrest
    hcounters.started_getMlqProc

end SimOs.Sched
