import SimOs.Lib.Transition

/-!
# The time slots

`timer_routine` and the devices attached before `start_timer`.  Every critical
section of `timer.c` is one step, a condition wait is a guard on the step after it,
and the label says which thread moves, so a run is an interleaving.

The timer walks the device list twice per slot: it waits until each device is done
or detached, increments `_time`, and releases each device.  A device announces the
end of its slot under one lock and is released under another, so a device that was
released early may announce its next slot before the walk has ended.

`_time` is unbounded here; the counter of the program has 64 bits.

## Main definitions

* `TimerId`: a device, with two counters that only the proofs read.
* `TimerPc`: the position of `timer_routine` in its loops.
* `timerSystem n`: the interleavings of the timer, `n` devices and `stop_timer`.
-/

namespace SimOs.Timer

/-- Where the thread that owns a device is. -/
inductive DevPhase
  /-- Doing the work of a slot. -/
  | working
  /-- In `next_slot`, after the first critical section. -/
  | waiting
  /-- After `detach_event`. -/
  | detached
  deriving DecidableEq

/-- `struct timer_id_t`, the position of its thread, and how often the thread has
set `done` and has returned from `next_slot`. -/
structure TimerId where
  done : Bool
  fsh : Bool
  phase : DevPhase
  announced : ℕ
  returned : ℕ

namespace TimerId

/-- A device after `attach_event`. -/
def attached : TimerId := ⟨false, false, .working, 0, 0⟩

/-- The first critical section of `next_slot`. -/
def announce (d : TimerId) : TimerId :=
  { d with done := true, phase := .waiting, announced := d.announced + 1 }

/-- The return from `next_slot`, whose second critical section waits for `!done`. -/
def wake (d : TimerId) : TimerId :=
  { d with phase := .working, returned := d.returned + 1 }

/-- `detach_event`. -/
def detach (d : TimerId) : TimerId := { d with fsh := true, phase := .detached }

/-- The critical section of the second walk of the timer. -/
def release (d : TimerId) : TimerId := { d with done := false }

end TimerId

/-- The position of `timer_routine`, with its local counters `fsh` and `event`. -/
inductive TimerPc
  /-- At `while (!timer_stop)`. -/
  | top
  /-- In the first walk, at the device with index `k`. -/
  | wait (k fsh event : ℕ)
  /-- At `_time++`. -/
  | tick (fsh event : ℕ)
  /-- In the second walk, at the device with index `k`. -/
  | release (k fsh event : ℕ)
  /-- After `pthread_exit`. -/
  | exited
  deriving DecidableEq

/-- The globals of `timer.c` and the position of the timer thread.  The device with
index `k` is the `k`-th of `dev_list`. -/
structure State where
  /-- `_time`. -/
  time : ℕ
  /-- `timer_stop`. -/
  timerStop : Bool
  pc : TimerPc
  dev : ℕ → TimerId

/-- Which thread makes its next step. -/
inductive Label
  | timer
  /-- A device enters `next_slot`. -/
  | announce (j : ℕ)
  /-- A device returns from `next_slot`. -/
  | wake (j : ℕ)
  | detach (j : ℕ)
  /-- The assignment in `stop_timer`. -/
  | stopTimer
  deriving DecidableEq

variable (n : ℕ)

/-- One step of `timer_routine` over `n` devices. -/
def timerRoutine (s : State) : Option State :=
  match s.pc with
  | .top => some { s with pc := if s.timerStop then .exited else .wait 0 0 0 }
  | .wait k fsh event =>
      if k < n then
        if (s.dev k).done ∨ (s.dev k).fsh then
          some { s with
            pc := .wait (k + 1) (if (s.dev k).fsh then fsh + 1 else fsh) (event + 1) }
        else none
      else some { s with pc := .tick fsh event }
  | .tick fsh event => some { s with time := s.time + 1, pc := .release 0 fsh event }
  | .release k fsh event =>
      if k < n then
        some { s with
          dev := Function.update s.dev k (s.dev k).release
          pc := .release (k + 1) fsh event }
      else some { s with pc := if fsh = event then .exited else .top }
  | .exited => none

/-- One step of any thread.  A device is used by one thread, so it is announced and
detached only between two slots. -/
def step (s : State) : Label → Option State
  | .timer => timerRoutine n s
  | .announce j =>
      if j < n ∧ (s.dev j).phase = .working then
        some { s with dev := Function.update s.dev j (s.dev j).announce }
      else none
  | .wake j =>
      if j < n ∧ (s.dev j).phase = .waiting ∧ (s.dev j).done = false then
        some { s with dev := Function.update s.dev j (s.dev j).wake }
      else none
  | .detach j =>
      if j < n ∧ (s.dev j).phase = .working then
        some { s with dev := Function.update s.dev j (s.dev j).detach }
      else none
  | .stopTimer => some { s with timerStop := true }

/-- The state in which `start_timer` creates the timer thread. -/
def init : State := ⟨0, false, .top, fun _ => TimerId.attached⟩

/-- The interleavings of the timer, `n` devices and `stop_timer`. -/
def timerSystem : Lts State Label where
  init s := s = init
  step := step n

end SimOs.Timer
