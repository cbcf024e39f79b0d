import SimOs.Timer.Barrier
import SimOs.Lib.Simulation

/-!
# Which slot a device is in

The number of returns from `next_slot` is the slot a thread works in.  As long as it works
this is `_time`; a thread in `next_slot` is either through with the current slot, or
still to be released into it.  `_time` moves only when every device that is not detached
is through.

## Main definitions

* `timerRoutine_cases`: what a step of the timer changes.
* `Inv.working`, `Inv.waiting`, `Inv.through`: the slot of a device, by its phase.
* `Inv.blocked`: what the timer waits for when it cannot move.
-/

namespace SimOs.Timer

variable {n : ℕ} {s t : State}

/-- **What a step of the timer changes**: its position, and `_time` or the flag `done` of one
device. -/
theorem timerRoutine_cases (h : timerRoutine n s = some t) :
    (∃ pc, t = { s with pc := pc }) ∨
    (∃ fsh event, s.pc = .tick fsh event ∧
      t = { s with time := s.time + 1, pc := .release 0 fsh event }) ∨
    ∃ k fsh event, s.pc = .release k fsh event ∧ k < n ∧
      t = { s with
        dev := Function.update s.dev k (s.dev k).release
        pc := .release (k + 1) fsh event } := by
  cases hpc : s.pc <;> simp only [timerRoutine, hpc] at h
  case top =>
    exact Or.inl ⟨_, (Option.some.inj h).symm⟩
  case wait k fsh event =>
    split at h
    · obtain ⟨-, h⟩ := Option.ite_none_right_eq_some.mp h
      exact Or.inl ⟨_, (Option.some.inj h).symm⟩
    · exact Or.inl ⟨_, (Option.some.inj h).symm⟩
  case tick fsh event =>
    obtain rfl := Option.some.inj h
    exact Or.inr (Or.inl ⟨fsh, event, rfl, rfl⟩)
  case release k fsh event =>
    split at h
    · next hlt =>
        obtain rfl := Option.some.inj h
        exact Or.inr (Or.inr ⟨k, fsh, event, rfl, hlt, rfl⟩)
    · obtain rfl := Option.some.inj h
      exact Or.inl ⟨_, rfl⟩
  case exited => cases h

/-- A step of the timer changes of a device the flag `done` at most. -/
theorem dev_timerRoutine (h : timerRoutine n s = some t) (j : ℕ) :
    t.dev j = s.dev j ∨ t.dev j = (s.dev j).release := by
  rcases timerRoutine_cases h with ⟨pc, rfl⟩ | ⟨fsh, event, -, rfl⟩ | ⟨k, fsh, event, -, -, rfl⟩
  · exact Or.inl rfl
  · exact Or.inl rfl
  · rcases eq_or_ne j k with rfl | hne
    · exact Or.inr (Function.update_self ..)
    · exact Or.inl (Function.update_of_ne hne ..)

theorem phase_timerRoutine (h : timerRoutine n s = some t) (j : ℕ) :
    (t.dev j).phase = (s.dev j).phase := by
  rcases dev_timerRoutine h j with hj | hj <;> rw [hj]
  rfl

theorem returned_timerRoutine (h : timerRoutine n s = some t) (j : ℕ) :
    (t.dev j).returned = (s.dev j).returned := by
  rcases dev_timerRoutine h j with hj | hj <;> rw [hj]
  rfl

/-- A step of the timer leaves `_time` alone or is the tick. -/
theorem time_timerRoutine (h : timerRoutine n s = some t) :
    t.time = s.time ∨
      t.time = s.time + 1 ∧ t.dev = s.dev ∧ ∃ fsh event, s.pc = .tick fsh event := by
  rcases timerRoutine_cases h with ⟨pc, rfl⟩ | ⟨fsh, event, hpc, rfl⟩ | ⟨k, fsh, event, -, -, rfl⟩
  · exact Or.inl rfl
  · exact Or.inr ⟨rfl, rfl, fsh, event, hpc⟩
  · exact Or.inl rfl

namespace Inv

/-- **A device that works** is in the current slot. -/
theorem working (h : Inv n s) {j : ℕ} (hj : j < n) (hphase : (s.dev j).phase = .working) :
    (s.dev j).returned = s.time ∧ (s.dev j).done = false := by
  have hd := h.dev j hj
  have hnd : ¬ (s.dev j).Detached := by simp [TimerId.Detached, hphase]
  obtain ⟨hdone, hret⟩ := hd.working hphase
  have hnh : ¬ Held s.pc j := by
    intro hh
    simpa [hphase] using (hd.of_held hh hnd).1
  have hann := hd.of_not_held hnh hnd
  simp only [hdone, Bool.false_eq_true, if_false, Nat.add_zero] at hann
  exact ⟨hret.trans hann, hdone⟩

/-- **A device that waits** is through with the current slot, or was not yet released into
it. -/
theorem waiting (h : Inv n s) {j : ℕ} (hj : j < n) (hphase : (s.dev j).phase = .waiting) :
    (s.dev j).returned = s.time ∧ (s.dev j).done = true ∨ (s.dev j).returned + 1 = s.time := by
  have hd := h.dev j hj
  have hnd : ¬ (s.dev j).Detached := by simp [TimerId.Detached, hphase]
  have hret := hd.waiting hphase
  by_cases hh : Held s.pc j
  · have := (hd.of_held hh hnd).2.2
    omega
  · have hann := hd.of_not_held hh hnd
    cases hdone : (s.dev j).done with
    | true =>
        rw [hdone, if_pos rfl] at hann
        exact Or.inl ⟨by omega, rfl⟩
    | false =>
        simp only [hdone, Bool.false_eq_true, if_false] at hann
        exact Or.inr (by omega)

/-- A device that may return from `next_slot` returns into the current slot. -/
theorem released (h : Inv n s) {j : ℕ} (hj : j < n) (hphase : (s.dev j).phase = .waiting)
    (hdone : (s.dev j).done = false) : (s.dev j).returned + 1 = s.time := by
  rcases h.waiting hj hphase with hthrough | hlate
  · rw [hdone] at hthrough
    cases hthrough.2
  · exact hlate

/-- **Before the tick** every device is detached or through with the current slot. -/
theorem through (h : Inv n s) {fsh event : ℕ} (hpc : s.pc = .tick fsh event) {j : ℕ}
    (hj : j < n) : (s.dev j).phase = .detached ∨
      (s.dev j).phase = .waiting ∧ (s.dev j).returned = s.time := by
  have hpos := h.pos
  simp only [PosOk, hpc] at hpos
  by_cases hdet : (s.dev j).Detached
  · exact Or.inl hdet
  · have hdone := (hpos.2 j hj).resolve_left hdet
    have hd := h.dev j hj
    rw [hpc] at hd
    have hann := hd.of_not_held not_false hdet
    rw [hdone, if_pos rfl] at hann
    cases hphase : (s.dev j).phase with
    | working => simp [(hd.working hphase).1] at hdone
    | waiting =>
        have := hd.waiting hphase
        exact Or.inr ⟨rfl, by omega⟩
    | detached => exact absurd hphase hdet

/-- **A timer that cannot move** has exited, or waits for a device that works or was
released. -/
theorem blocked (h : Inv n s) (hno : Timer.timerRoutine n s = none) :
    s.pc = .exited ∨ ∃ j, j < n ∧ (s.dev j).done = false ∧
      ((s.dev j).phase = .working ∨ (s.dev j).phase = .waiting) := by
  cases hpc : s.pc <;> simp only [Timer.timerRoutine, hpc, reduceCtorEq] at hno
  case wait k fsh event =>
    right
    split at hno
    · next hlt =>
        split at hno
        · cases hno
        · next hnot =>
            rw [not_or, Bool.not_eq_true, Bool.not_eq_true] at hnot
            refine ⟨k, hlt, hnot.1, ?_⟩
            cases hphase : (s.dev k).phase with
            | working => exact Or.inl rfl
            | waiting => exact Or.inr rfl
            | detached =>
                have := (h.dev k hlt).fsh_iff.mpr hphase
                rw [hnot.2] at this
                cases this
    · cases hno
  case release k fsh event =>
    split at hno <;> cases hno
  case exited => exact Or.inl rfl

end Inv

/-- **No device is ahead of the clock**, detached or not. -/
theorem reachable_returned_le (h : (timerSystem n).Reachable s) {j : ℕ} (hj : j < n) :
    (s.dev j).returned ≤ s.time := by
  have hall : ∀ j, j < n → (s.dev j).returned ≤ s.time := by
    refine h.invariant_of (P := fun s => ∀ j, j < n → (s.dev j).returned ≤ s.time) ?_ ?_
    · rintro s rfl j -
      exact le_rfl
    · intro s l t hs hle hstep j hj
      have hinv := reachable_inv hs
      have hold := hle j hj
      -- A device that is updated keeps its count, or returns into the current slot.
      have hupdate : ∀ {k : ℕ} {d : TimerId}, (d.returned ≤ s.time) →
          (Function.update s.dev k d j).returned ≤ s.time := by
        intro k d hd
        rcases eq_or_ne j k with rfl | hne
        · rwa [Function.update_self]
        · rwa [Function.update_of_ne hne]
      cases l with
      | timer =>
          rw [returned_timerRoutine hstep]
          rcases time_timerRoutine hstep with htime | ⟨htime, -⟩ <;> omega
      | announce k =>
          obtain ⟨hk, hstep⟩ := Option.ite_none_right_eq_some.mp hstep
          obtain rfl := Option.some.inj hstep
          exact hupdate (hle k hk.1)
      | wake k =>
          obtain ⟨hk, hstep⟩ := Option.ite_none_right_eq_some.mp hstep
          obtain rfl := Option.some.inj hstep
          exact hupdate (hinv.released hk.1 hk.2.1 hk.2.2).le
      | detach k =>
          obtain ⟨hk, hstep⟩ := Option.ite_none_right_eq_some.mp hstep
          obtain rfl := Option.some.inj hstep
          exact hupdate (hle k hk.1)
      | stopTimer =>
          obtain rfl := Option.some.inj hstep
          exact hold
  exact hall j hj

end SimOs.Timer
