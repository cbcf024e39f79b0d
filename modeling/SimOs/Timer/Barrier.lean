import SimOs.Timer.Model
import Mathlib.Tactic.Common

/-!
# The slots are a lockstep barrier

Between the increment of `_time` and its release a device is *held*: it has
announced the slot that just ended and sleeps.  Outside that window it has announced
`_time` slots, or `_time + 1` if its flag is up.  `DevOk` says this of one device and
`PosOk` what the timer has learned at its position; together they are preserved by
every step of every thread.

## Main definitions

* `Held`, `DevOk`, `PosOk`, `Inv`: the invariant.
* `lockstep_barrier`: the barrier property of every reachable state.
-/

namespace SimOs.Timer

variable {n : ℕ}

/-- The thread of the device has called `detach_event`. -/
def TimerId.Detached (d : TimerId) : Prop := d.phase = .detached

/-- `_time` was incremented for device `j`, which the second walk has not reached. -/
def Held : TimerPc → ℕ → Prop
  | .release k _ _, j => k ≤ j
  | _, _ => False

/-- What holds of one device while `_time` is `time`. -/
structure DevOk (time : ℕ) (held : Prop) (d : TimerId) : Prop where
  fsh_iff : d.fsh = true ↔ d.Detached
  working : d.phase = .working → d.done = false ∧ d.returned = d.announced
  waiting : d.phase = .waiting → d.announced = d.returned + 1
  of_held : held → ¬ d.Detached → d.phase = .waiting ∧ d.done = true ∧ d.announced = time
  of_not_held : ¬ held → ¬ d.Detached → d.announced = time + if d.done then 1 else 0

theorem devOk_attached : DevOk 0 False TimerId.attached where
  fsh_iff := by simp [TimerId.attached, TimerId.Detached]
  working _ := ⟨rfl, rfl⟩
  waiting h := absurd h (by simp [TimerId.attached])
  of_held h := h.elim
  of_not_held _ _ := rfl

/-- The device was seen done or detached. -/
def Passed (d : TimerId) : Prop := d.Detached ∨ d.done = true

namespace DevOk
variable {time : ℕ} {held : Prop} {d : TimerId}

theorem announce (h : DevOk time held d) (hw : d.phase = .working) :
    DevOk time held d.announce := by
  have hnd : ¬ d.Detached := by simp [TimerId.Detached, hw]
  have hnh : ¬ held := fun hh => by simpa [hw] using (h.of_held hh hnd).1
  have hann := h.of_not_held hnh hnd
  obtain ⟨hdone, hret⟩ := h.working hw
  simp only [hdone, Bool.false_eq_true, if_false] at hann
  refine ⟨?_, fun hc => by simp [TimerId.announce] at hc, fun _ => ?_, fun hh => absurd hh hnh,
    fun _ _ => ?_⟩
  · have hfsh := h.fsh_iff
    simp only [TimerId.Detached, hw, reduceCtorEq, iff_false] at hfsh
    simp [TimerId.announce, TimerId.Detached, hfsh]
  · simp only [TimerId.announce, hret]
  · simp [TimerId.announce, hann]

theorem wake (h : DevOk time held d) (hw : d.phase = .waiting) (hdone : d.done = false) :
    DevOk time held d.wake := by
  have hnd : ¬ d.Detached := by simp [TimerId.Detached, hw]
  have hnh : ¬ held := fun hh => by simpa [hdone] using (h.of_held hh hnd).2.1
  refine ⟨?_, fun _ => ⟨hdone, ?_⟩, fun hc => by simp [TimerId.wake] at hc,
    fun hh => absurd hh hnh, fun _ _ => h.of_not_held hnh hnd⟩
  · have hfsh := h.fsh_iff
    simp only [TimerId.Detached, hw, reduceCtorEq, iff_false] at hfsh
    simp [TimerId.wake, TimerId.Detached, hfsh]
  · simp only [TimerId.wake, h.waiting hw]

theorem detach : DevOk time held d.detach := by
  refine ⟨by simp [TimerId.detach, TimerId.Detached], fun hc => by simp [TimerId.detach] at hc,
    fun hc => by simp [TimerId.detach] at hc, fun _ hc => ?_, fun _ hc => ?_⟩ <;>
  exact absurd rfl hc

/-- The second walk releases a held device. -/
theorem release (h : DevOk time held d) (hh : held) : DevOk time False d.release := by
  refine ⟨h.fsh_iff, fun hw => ⟨rfl, (h.working hw).2⟩, h.waiting, fun hc => hc.elim,
    fun _ hnd => ?_⟩
  have := (h.of_held hh hnd).2.2
  simpa [TimerId.release] using this

/-- The increment holds every device that is not detached. -/
theorem tick (h : DevOk time False d) (hp : Passed d) : DevOk (time + 1) True d := by
  refine ⟨h.fsh_iff, h.working, h.waiting, ?_, fun hc => absurd trivial hc⟩
  intro _ hnd
  have hdone := hp.resolve_left hnd
  have hann := h.of_not_held not_false hnd
  rw [hdone, if_pos rfl] at hann
  refine ⟨?_, hdone, hann⟩
  cases hphase : d.phase with
  | working => simp [(h.working hphase).1] at hdone
  | waiting => rfl
  | detached => exact absurd hphase hnd

/-- A device that is not detached has announced `time` or `time + 1` slots. -/
theorem announced (h : DevOk time held d) (hnd : ¬ d.Detached) :
    d.announced = time ∨ d.announced = time + 1 := by
  by_cases hh : held
  · exact Or.inl (h.of_held hh hnd).2.2
  · have := h.of_not_held hh hnd
    split at this <;> omega

/-- A device that is not detached has returned for at most `time` slots. -/
theorem returned_le (h : DevOk time held d) (hnd : ¬ d.Detached) : d.returned ≤ time := by
  have hann := h.announced hnd
  cases hphase : d.phase with
  | working =>
      obtain ⟨hdone, hret⟩ := h.working hphase
      have hnh : ¬ held := fun hh => by simpa [hphase] using (h.of_held hh hnd).1
      have := h.of_not_held hnh hnd
      simp only [hdone, Bool.false_eq_true, if_false] at this
      omega
  | waiting =>
      have := h.waiting hphase
      omega
  | detached => exact absurd hphase hnd

end DevOk

/-- The local counters after `k` devices: all of them were detached if `fsh` has
counted every one. -/
def Counted (s : State) (k fsh event : ℕ) : Prop :=
  event = k ∧ fsh ≤ k ∧ (fsh = k → ∀ j, j < k → (s.dev j).Detached)

/-- What the timer has learned at its position. -/
def PosOk (n : ℕ) (s : State) : Prop :=
  match s.pc with
  | .top => True
  | .wait k fsh event => k ≤ n ∧ Counted s k fsh event ∧ ∀ j, j < k → Passed (s.dev j)
  | .tick fsh event => Counted s n fsh event ∧ ∀ j, j < n → Passed (s.dev j)
  | .release k fsh event => k ≤ n ∧ Counted s n fsh event
  | .exited => s.timerStop = false → ∀ j, j < n → (s.dev j).Detached

/-- The invariant of the barrier. -/
structure Inv (n : ℕ) (s : State) : Prop where
  dev : ∀ j, j < n → DevOk s.time (Held s.pc j) (s.dev j)
  pos : PosOk n s

/-- The counters are not affected by a device that stays detached if it was. -/
theorem Counted.update {s t : State} {k fsh event j : ℕ} {d : TimerId}
    (h : Counted s k fsh event) (ht : t.dev = Function.update s.dev j d)
    (hdet : (s.dev j).Detached → d.Detached) : Counted t k fsh event := by
  refine ⟨h.1, h.2.1, ?_⟩
  intro heq i hi
  have hi' := h.2.2 heq i hi
  rw [ht]
  rcases eq_or_ne i j with rfl | hne
  · rw [Function.update_self]
    exact hdet hi'
  · rwa [Function.update_of_ne hne]

/-- Counting one more device. -/
theorem Counted.succ {s : State} {k fsh event : ℕ} (h : Counted s k fsh event)
    (hfsh : (s.dev k).fsh = true → (s.dev k).Detached) :
    Counted s (k + 1) (if (s.dev k).fsh then fsh + 1 else fsh) (event + 1) := by
  obtain ⟨hevent, hle, hall⟩ := h
  refine ⟨by rw [hevent], by split <;> omega, ?_⟩
  intro heq j hj
  -- The count is full only if it was full before and this device is detached.
  split at heq
  · next hf =>
      rcases Nat.lt_succ_iff_lt_or_eq.mp hj with hj | rfl
      · exact hall (by omega) j hj
      · exact hfsh hf
  · omega

/-- The position is not affected by a device that stays detached if it was, and stays
done or detached if it was. -/
theorem PosOk.update {s : State} (h : PosOk n s) {j : ℕ} {d : TimerId}
    (hdet : (s.dev j).Detached → d.Detached) (hpass : Passed (s.dev j) → Passed d) :
    PosOk n { s with dev := Function.update s.dev j d } := by
  have hdet' : ∀ i, (s.dev i).Detached → (Function.update s.dev j d i).Detached := by
    intro i hi
    rcases eq_or_ne i j with rfl | hne
    · rw [Function.update_self]; exact hdet hi
    · rwa [Function.update_of_ne hne]
  have hpass' : ∀ i, Passed (s.dev i) → Passed (Function.update s.dev j d i) := by
    intro i hi
    rcases eq_or_ne i j with rfl | hne
    · rw [Function.update_self]; exact hpass hi
    · rwa [Function.update_of_ne hne]
  cases hpc : s.pc <;> simp only [PosOk, hpc] at h ⊢
  case wait k fsh event => exact ⟨h.1, h.2.1.update rfl hdet, fun i hi => hpass' i (h.2.2 i hi)⟩
  case tick fsh event => exact ⟨h.1.update rfl hdet, fun i hi => hpass' i (h.2 i hi)⟩
  case release k fsh event => exact ⟨h.1, h.2.update rfl hdet⟩
  case exited => exact fun hstop i hi => hdet' i (h hstop i hi)

/-- A step of a device. -/
theorem Inv.update {s : State} (h : Inv n s) {j : ℕ} {d : TimerId}
    (hd : ∀ {held}, DevOk s.time held (s.dev j) → DevOk s.time held d)
    (hdet : (s.dev j).Detached → d.Detached) (hpass : Passed (s.dev j) → Passed d) :
    Inv n { s with dev := Function.update s.dev j d } := by
  refine ⟨?_, h.pos.update hdet hpass⟩
  intro i hi
  rcases eq_or_ne i j with rfl | hne
  · simpa only [Function.update_self] using hd (h.dev i hi)
  · simpa only [Function.update_of_ne hne] using h.dev i hi

/-- What has passed is done, or detached as its flag `fsh` says. -/
theorem DevOk.passed {time : ℕ} {held : Prop} {d : TimerId} (h : DevOk time held d)
    (hready : d.done = true ∨ d.fsh = true) : Passed d := by
  rcases hready with hdone | hfsh
  · exact Or.inr hdone
  · exact Or.inl (h.fsh_iff.mp hfsh)

section Walks

variable {s : State} {k fsh event : ℕ}

/-- The first walk counts a device that is done or detached. -/
theorem Inv.wait_succ (h : Inv n s) (hpc : s.pc = .wait k fsh event) (hlt : k < n)
    (hready : (s.dev k).done = true ∨ (s.dev k).fsh = true) :
    Inv n { s with
      pc := .wait (k + 1) (if (s.dev k).fsh then fsh + 1 else fsh) (event + 1) } := by
  obtain ⟨hdev, hpos⟩ := h
  simp only [hpc, PosOk, Held] at hdev hpos
  obtain ⟨hk, hcount, hpassed⟩ := hpos
  refine ⟨hdev, hlt, hcount.succ (hdev k hlt).fsh_iff.mp, ?_⟩
  intro j hj
  rcases Nat.lt_succ_iff_lt_or_eq.mp hj with hj | rfl
  · exact hpassed j hj
  · exact (hdev j hlt).passed hready

/-- The second walk releases a device. -/
theorem Inv.release_succ (h : Inv n s) (hpc : s.pc = .release k fsh event) (hlt : k < n) :
    Inv n { s with
      dev := Function.update s.dev k (s.dev k).release
      pc := .release (k + 1) fsh event } := by
  obtain ⟨hdev, hpos⟩ := h
  simp only [hpc, PosOk, Held] at hdev hpos
  refine ⟨?_, hlt, hpos.2.update rfl fun hdet => hdet⟩
  intro j hj
  simp only [Held]
  rcases eq_or_ne j k with rfl | hne
  · have hrel := (hdev j hj).release (Nat.le_refl j)
    rw [Function.update_self]
    simpa only [show ¬ j + 1 ≤ j by omega] using hrel
  · rw [Function.update_of_ne hne, show (k + 1 ≤ j) = (k ≤ j) by
      exact propext ⟨by omega, by omega⟩]
    exact hdev j hj

/-- At the end of the second walk no device is held, and the thread exits only if all are
detached. -/
theorem Inv.release_end (h : Inv n s) (hpc : s.pc = .release k fsh event) (hge : ¬ k < n) :
    Inv n { s with pc := if fsh = event then .exited else .top } := by
  obtain ⟨hdev, hpos⟩ := h
  simp only [hpc, PosOk, Held] at hdev hpos
  have hfree : ∀ j, j < n → DevOk s.time False (s.dev j) := by
    intro j hj
    simpa only [show ¬ k ≤ j by omega] using hdev j hj
  obtain ⟨-, hevent, -, hall⟩ := hpos
  by_cases heq : fsh = event
  · refine ⟨by simpa [heq, Held] using hfree, ?_⟩
    simp only [PosOk, if_pos heq]
    exact fun _ j hj => hall (heq.trans hevent) j hj
  · exact ⟨by simpa [heq, Held] using hfree, by simp [PosOk, heq]⟩

end Walks

/-- A step of the timer. -/
theorem Inv.timerRoutine {s t : State} (h : Inv n s) (hstep : timerRoutine n s = some t) :
    Inv n t := by
  have hdev := h.dev
  have hpos := h.pos
  cases hpc : s.pc <;> simp only [Timer.timerRoutine, hpc] at hstep <;>
    simp only [hpc, PosOk, Held] at hdev hpos
  case top =>
    obtain rfl := Option.some.inj hstep
    cases hstop : s.timerStop with
    | true => exact ⟨by simpa [Held] using hdev, by simp [PosOk]⟩
    | false => exact ⟨by simpa [Held] using hdev, by simp [PosOk, Counted]⟩
  case wait k fsh event =>
    obtain ⟨hk, hcount, hpassed⟩ := hpos
    split at hstep
    · next hlt =>
        split at hstep
        · next hready =>
            obtain rfl := Option.some.inj hstep
            exact h.wait_succ hpc hlt hready
        · exact absurd hstep (by simp)
    · next hge =>
        obtain rfl := Option.some.inj hstep
        obtain rfl : k = n := by omega
        exact ⟨hdev, hcount, hpassed⟩
  case tick fsh event =>
    obtain rfl := Option.some.inj hstep
    refine ⟨?_, Nat.zero_le n, hpos.1⟩
    intro j hj
    simpa only [Held, Nat.zero_le] using (hdev j hj).tick (hpos.2 j hj)
  case release k fsh event =>
    split at hstep
    · next hlt =>
        obtain rfl := Option.some.inj hstep
        exact h.release_succ hpc hlt
    · next hge =>
        obtain rfl := Option.some.inj hstep
        exact h.release_end hpc hge
  case exited => exact absurd hstep (by simp)

/-- **One step** of any thread keeps the invariant. -/
theorem inv_step {s t : State} {l : Label} (h : Inv n s) (hstep : step n s l = some t) :
    Inv n t := by
  cases l with
  | timer => exact h.timerRoutine hstep
  | announce j =>
      simp only [step] at hstep
      split at hstep
      · next hcond =>
          obtain rfl := Option.some.inj hstep
          refine h.update (fun hd => hd.announce hcond.2) (?_) fun _ => Or.inr rfl
          intro hdet
          exact absurd (hcond.2.symm.trans hdet) (by simp)
      · exact absurd hstep (by simp)
  | wake j =>
      simp only [step] at hstep
      split at hstep
      · next hcond =>
          obtain rfl := Option.some.inj hstep
          obtain ⟨-, hphase, hdone⟩ := hcond
          have hnd : ¬ (s.dev j).Detached := by simp [TimerId.Detached, hphase]
          refine h.update (fun hd => hd.wake hphase hdone) (fun hdet => absurd hdet hnd) ?_
          rintro (hdet | hd)
          · exact absurd hdet hnd
          · simp [hdone] at hd
      · exact absurd hstep (by simp)
  | detach j =>
      simp only [step] at hstep
      split at hstep
      · obtain rfl := Option.some.inj hstep
        exact h.update (fun _ => DevOk.detach) (fun _ => rfl) fun _ => Or.inl rfl
      · exact absurd hstep (by simp)
  | stopTimer =>
      obtain rfl := Option.some.inj hstep
      refine ⟨h.dev, ?_⟩
      have hpos := h.pos
      cases hpc : s.pc <;> simp only [PosOk, hpc] at hpos ⊢
      case wait | tick | release => exact hpos
      case exited => exact fun hc => absurd hc (by simp)

/-- **Every reachable state** satisfies the invariant. -/
theorem reachable_inv {s : State} (h : (timerSystem n).Reachable s) : Inv n s := by
  refine h.invariant (P := Inv n) ?_ fun _ _ _ hs hl => inv_step hs hl
  rintro s rfl
  exact ⟨fun _ _ => devOk_attached, trivial⟩

/-- `_time` changes only at `_time++`. -/
theorem pc_of_time_ne {s t : State} {l : Label} (hstep : step n s l = some t)
    (hne : t.time ≠ s.time) : ∃ fsh event, s.pc = .tick fsh event := by
  cases l with
  | timer =>
      cases hpc : s.pc <;> simp only [step, timerRoutine, hpc] at hstep
      case tick fsh event => exact ⟨fsh, event, rfl⟩
      case exited => exact absurd hstep (by simp)
      all_goals
        repeat' split at hstep
        all_goals first
          | (obtain rfl := Option.some.inj hstep; exact absurd rfl hne)
          | exact absurd hstep (by simp)
  | stopTimer =>
      obtain rfl := Option.some.inj hstep
      exact absurd rfl hne
  | announce j | wake j | detach j =>
      simp only [step] at hstep
      split at hstep
      · obtain rfl := Option.some.inj hstep
        exact absurd rfl hne
      · exact absurd hstep (by simp)

/-- **The time slots are a lockstep barrier**, in every reachable state of fewer than `2 ^ 64`
slots, where `_time` has not wrapped, and whatever the number of devices: a device that has
not detached has announced `_time` or `_time + 1` slots and has returned for at most `_time`;
a step increments `_time` only when all of them have announced `_time + 1`; and unless
`stop_timer` was called the timer has exited only when all devices have detached. -/
theorem lockstep_barrier {s : State} (h : (timerSystem n).Reachable s) :
    (∀ j, j < n → ¬ (s.dev j).Detached →
      ((s.dev j).announced = s.time ∨ (s.dev j).announced = s.time + 1) ∧
        (s.dev j).returned ≤ s.time) ∧
    (∀ l t, step n s l = some t → t.time ≠ s.time →
      ∀ j, j < n → ¬ (s.dev j).Detached → (s.dev j).announced = s.time + 1) ∧
    (s.timerStop = false → s.pc = .exited → ∀ j, j < n → (s.dev j).Detached) := by
  obtain ⟨hdev, hpos⟩ := reachable_inv h
  refine ⟨fun j hj hnd => ⟨(hdev j hj).announced hnd, (hdev j hj).returned_le hnd⟩, ?_, ?_⟩
  · intro l t hstep hne j hj hnd
    obtain ⟨fsh, event, hpc⟩ := pc_of_time_ne hstep hne
    simp only [PosOk, hpc] at hpos
    have hok := hdev j hj
    rw [hpc] at hok
    have := hok.of_not_held not_false hnd
    rwa [hpos.2 j hj |>.resolve_left hnd, if_pos rfl] at this
  · intro hstop hpc
    simp only [PosOk, hpc] at hpos
    exact hpos hstop

/-- A device that finishes one slot and announces the next one before the timer has
ended its second walk. -/
theorem lockstep_barrier_early :
    ∃ s, (timerSystem 2).run init [.timer, .announce 0, .timer, .announce 1, .timer, .timer,
        .timer, .timer, .wake 0, .announce 0] = some s ∧
      (∀ j, j < 2 → ¬ (s.dev j).Detached →
        ((s.dev j).announced = s.time ∨ (s.dev j).announced = s.time + 1) ∧
          (s.dev j).returned ≤ s.time) ∧
      (∀ l t, step 2 s l = some t → t.time ≠ s.time →
        ∀ j, j < 2 → ¬ (s.dev j).Detached → (s.dev j).announced = s.time + 1) ∧
      (s.timerStop = false → s.pc = .exited → ∀ j, j < 2 → (s.dev j).Detached) := by
  obtain ⟨s, hs⟩ := Option.isSome_iff_exists.mp (show ((timerSystem 2).run init [.timer,
    .announce 0, .timer, .announce 1, .timer, .timer, .timer, .timer, .wake 0,
    .announce 0]).isSome by decide)
  exact ⟨s, hs, lockstep_barrier ⟨init, _, rfl, hs⟩⟩

end SimOs.Timer
