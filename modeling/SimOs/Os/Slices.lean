import SimOs.Os.Ownership

/-!
# Time slices

`time_left` is the one counter of `cpu_routine`.  A dispatch sets it to `time_slot`, a call
of `run` counts it down, a finished process resets it, and a process is put back when it
is zero.  So whatever `get_proc` answers, whenever the flag `done` is set and whenever a
process turns out to be finished, the calls of `run` fall into slices: a dispatch, and
`time_slot` calls up to the put back, or at most as many up to the report that the process
has finished.

One CPU is looked at, with all that it learns from outside as an input.  Every step of a
CPU of the system is such a step.

## Main definitions

* `Answers`, `cpuRoutine`: `cpu_routine` on one CPU, and its inputs.
* `Event`, `events`: what happens to processes.
* `Slice`, `Running`: a whole slice, and one that is not over.
* `slices_exact`: what it means for every sequence of inputs.
* `cpuStep_refines`: the CPUs of the system are such CPUs.
-/

namespace SimOs.Os

open SimOs.Sched

universe u

/-- What a CPU learns from outside in a step. -/
structure Answers where
  /-- `proc->pc == proc->code->size`. -/
  ended : Bool
  /-- What `get_proc` returns. -/
  got : Option ℕ
  /-- `done`. -/
  done : Bool

/-- One step of `cpu_routine`. -/
def cpuRoutine (timeSlot : ℤ) (c : Cpu) (a : Answers) : Option Cpu :=
  match c.line with
  | .head =>
      match c.proc with
      | none => some { c with line := .load }
      | some _ =>
          if a.ended then some { c with line := .reload, timeLeft := 0 }
          else if c.timeLeft = 0 then some { c with line := .putRunning }
          else some { c with line := .check }
  | .load => some { c with line := if a.got.isNone then .slot else .check, proc := a.got }
  | .putRunning => c.proc.map fun _ => { c with line := .putReady }
  | .putReady => c.proc.map fun _ => { c with line := .reload }
  | .reload => some { c with line := .check, proc := a.got }
  | .check =>
      match c.proc with
      | none => some { c with line := if a.done then .detach else .slot }
      | some _ =>
          some { c with
            line := .run
            timeLeft := if c.timeLeft = 0 then timeSlot else c.timeLeft }
  | .run => c.proc.map fun _ => { c with line := .slot, timeLeft := c.timeLeft - 1 }
  | .slot => some { c with line := .head }
  | .detach => some { c with line := .exited }
  | .exited => none

/-- What happens to a process on the CPU. -/
inductive Event
  | dispatch (p : ℕ)
  | run (p : ℕ)
  | putBack (p : ℕ)
  | finish (p : ℕ)
  deriving DecidableEq

/-- The events of a step. -/
def events (c : Cpu) (a : Answers) : List Event :=
  match c.proc with
  | none => []
  | some p =>
      match c.line with
      | .head => if a.ended then [.finish p] else []
      | .putReady => [.putBack p]
      | .check => if c.timeLeft = 0 then [.dispatch p] else []
      | .run => [.run p]
      | _ => []

/-- One CPU, from the start of its thread, with any inputs. -/
def cpuSystem (timeSlot : ℤ) : Lts Cpu Answers where
  init c := c = ⟨.head, none, 0⟩
  step := cpuRoutine timeSlot

/-- The events of a run, in order. -/
def log (timeSlot : ℤ) (c : Cpu) (answers : List Answers) : List Event :=
  ((cpuSystem timeSlot).trace events c answers).flatten

/-! ## Slices -/

/-- A dispatch of `p` and `k` calls of `run`. -/
def ticks (p k : ℕ) : List Event := .dispatch p :: List.replicate k (.run p)

/-- A whole slice. -/
inductive Slice (timeSlot : ℤ) : List Event → Prop
  /-- The process was put back after `time_slot` calls of `run`. -/
  | putBack (p k : ℕ) (hk : (k : ℤ) = timeSlot) : Slice timeSlot (ticks p k ++ [.putBack p])
  /-- The process was reported finished after at most `time_slot` calls of `run`. -/
  | finish (p k : ℕ) (hk : (k : ℤ) ≤ timeSlot) : Slice timeSlot (ticks p k ++ [.finish p])

/-- The slice of `p` is not over, and `time_left` counts what is left of it. -/
def Running (timeSlot : ℤ) (p : ℕ) (timeLeft : ℤ) (rest : List Event) : Prop :=
  ∃ k : ℕ, rest = ticks p k ∧ 0 ≤ timeLeft ∧ (k : ℤ) + timeLeft = timeSlot

/-- What has happened since the last slice, at every line of `cpu_routine`. -/
def Local (timeSlot : ℤ) (c : Cpu) (rest : List Event) : Prop :=
  match c.line, c.proc with
  | .head, some p => Running timeSlot p c.timeLeft rest
  | .slot, some p => Running timeSlot p c.timeLeft rest
  | .putRunning, some p => c.timeLeft = 0 ∧ Running timeSlot p c.timeLeft rest
  | .putReady, some p => c.timeLeft = 0 ∧ Running timeSlot p c.timeLeft rest
  | .check, some p =>
      c.timeLeft = 0 ∧ rest = [] ∨ c.timeLeft ≠ 0 ∧ Running timeSlot p c.timeLeft rest
  | .run, some p => c.timeLeft ≠ 0 ∧ Running timeSlot p c.timeLeft rest
  | _, _ => c.timeLeft = 0 ∧ rest = []

/-- The events so far are whole slices, and what `Local` says. -/
def Sliced (timeSlot : ℤ) (c : Cpu) (es : List Event) : Prop :=
  ∃ (slices : List (List Event)) (rest : List Event), es = slices.flatten ++ rest ∧
    (∀ s ∈ slices, Slice timeSlot s) ∧ Local timeSlot c rest

variable {timeSlot : ℤ}

/-- A call of `run` is counted. -/
theorem Running.tick {p : ℕ} {timeLeft : ℤ} {rest : List Event}
    (h : Running timeSlot p timeLeft rest) (hne : timeLeft ≠ 0) :
    Running timeSlot p (timeLeft - 1) (rest ++ [.run p]) := by
  obtain ⟨k, rfl, h0, hsum⟩ := h
  refine ⟨k + 1, ?_, by omega, by omega⟩
  rw [ticks, ticks, List.replicate_succ', List.cons_append]

section Lines

variable {proc : Option ℕ} {timeLeft : ℤ} {rest : List Event} {a : Answers} {c' : Cpu}

/-- A process of which nothing is known yet. -/
theorem local_got (timeSlot : ℤ) (got : Option ℕ) : Local timeSlot ⟨.check, got, 0⟩ [] := by
  cases got with
  | none => exact ⟨rfl, rfl⟩
  | some p => exact Or.inl ⟨rfl, rfl⟩

/-- The head of the loop ends the slice of a process that has finished. -/
theorem Local.head (h : Local timeSlot ⟨.head, proc, timeLeft⟩ rest)
    (hstep : cpuRoutine timeSlot ⟨.head, proc, timeLeft⟩ a = some c') :
    Local timeSlot c' (rest ++ events ⟨.head, proc, timeLeft⟩ a) ∨
      Slice timeSlot (rest ++ events ⟨.head, proc, timeLeft⟩ a) ∧ Local timeSlot c' [] := by
  cases proc with
  | none =>
      obtain rfl := Option.some.inj hstep
      exact Or.inl ⟨h.1, by rw [h.2]; rfl⟩
  | some p =>
      obtain ⟨k, rfl, h0, hsum⟩ := h
      simp only [cpuRoutine] at hstep
      by_cases hended : a.ended
      · rw [if_pos hended] at hstep
        obtain rfl := Option.some.inj hstep
        right
        simp only [events, if_pos hended]
        exact ⟨.finish p k (by omega), rfl, rfl⟩
      · rw [if_neg hended] at hstep
        simp only [events, if_neg hended, List.append_nil]
        left
        by_cases hover : timeLeft = 0
        · rw [if_pos hover] at hstep
          obtain rfl := Option.some.inj hstep
          exact ⟨hover, k, rfl, h0, hsum⟩
        · rw [if_neg hover] at hstep
          obtain rfl := Option.some.inj hstep
          exact Or.inr ⟨hover, k, rfl, h0, hsum⟩

/-- A dispatch begins a slice. -/
theorem Local.check (hslot : 1 ≤ timeSlot) (h : Local timeSlot ⟨.check, proc, timeLeft⟩ rest)
    (hstep : cpuRoutine timeSlot ⟨.check, proc, timeLeft⟩ a = some c') :
    Local timeSlot c' (rest ++ events ⟨.check, proc, timeLeft⟩ a) := by
  cases proc with
  | none =>
      obtain ⟨hzero, rfl⟩ := h
      obtain rfl := Option.some.inj hstep
      cases a.done <;> exact ⟨hzero, rfl⟩
  | some p =>
      obtain rfl := Option.some.inj hstep
      by_cases hover : timeLeft = 0
      · obtain ⟨-, rfl⟩ | ⟨hne, -⟩ := h
        · simp only [events, if_pos hover, Local]
          exact ⟨by omega, 0, rfl, by omega, by omega⟩
        · exact absurd hover hne
      · obtain ⟨hzero, -⟩ | ⟨-, hrunning⟩ := h
        · exact absurd hzero hover
        · simp only [events, if_neg hover, List.append_nil, Local]
          exact ⟨hover, hrunning⟩

/-- What `get_proc` returns begins with nothing. -/
theorem Local.load (h : Local timeSlot ⟨.load, proc, timeLeft⟩ rest)
    (hstep : cpuRoutine timeSlot ⟨.load, proc, timeLeft⟩ a = some c') :
    Local timeSlot c' (rest ++ events ⟨.load, proc, timeLeft⟩ a) := by
  obtain ⟨rfl, rfl⟩ : timeLeft = 0 ∧ rest = [] := by cases proc <;> exact h
  have hquiet : events ⟨.load, proc, 0⟩ a = [] := by cases proc <;> rfl
  obtain rfl := Option.some.inj hstep
  rw [hquiet]
  cases a.got with
  | none => exact ⟨rfl, rfl⟩
  | some p => exact local_got timeSlot (some p)

/-- So it does after a process was given up. -/
theorem Local.reload (h : Local timeSlot ⟨.reload, proc, timeLeft⟩ rest)
    (hstep : cpuRoutine timeSlot ⟨.reload, proc, timeLeft⟩ a = some c') :
    Local timeSlot c' (rest ++ events ⟨.reload, proc, timeLeft⟩ a) := by
  obtain ⟨rfl, rfl⟩ : timeLeft = 0 ∧ rest = [] := by cases proc <;> exact h
  have hquiet : events ⟨.reload, proc, 0⟩ a = [] := by cases proc <;> rfl
  obtain rfl := Option.some.inj hstep
  rw [hquiet]
  exact local_got timeSlot a.got

end Lines

/-- **One step** continues what has happened since the last slice, or ends a slice. -/
theorem Local.step (hslot : 1 ≤ timeSlot) {c c' : Cpu} {a : Answers} {rest : List Event}
    (h : Local timeSlot c rest) (hstep : cpuRoutine timeSlot c a = some c') :
    Local timeSlot c' (rest ++ events c a) ∨
      Slice timeSlot (rest ++ events c a) ∧ Local timeSlot c' [] := by
  rcases c with ⟨line, proc, timeLeft⟩
  cases line with
  | head => exact h.head hstep
  | load => exact Or.inl (h.load hstep)
  | putRunning =>
      cases proc with
      | none => cases hstep
      | some p =>
          obtain rfl := Option.some.inj hstep
          left
          rw [events, List.append_nil]
          exact h
  | putReady =>
      cases proc with
      | none => cases hstep
      | some p =>
          obtain ⟨hzero, k, rfl, -, hsum⟩ := h
          obtain rfl := Option.some.inj hstep
          right
          exact ⟨.putBack p k (by omega), hzero, rfl⟩
  | reload => exact Or.inl (h.reload hstep)
  | check => exact Or.inl (h.check hslot hstep)
  | run =>
      cases proc with
      | none => cases hstep
      | some p =>
          obtain rfl := Option.some.inj hstep
          exact Or.inl (h.2.tick h.1)
  | slot =>
      obtain rfl := Option.some.inj hstep
      left
      cases proc with
      | none => exact ⟨h.1, by rw [h.2]; rfl⟩
      | some p =>
          rw [events, List.append_nil]
          exact h
  | detach =>
      obtain ⟨hzero, rfl⟩ : timeLeft = 0 ∧ rest = [] := by cases proc <;> exact h
      obtain rfl := Option.some.inj hstep
      left
      cases proc <;> exact ⟨hzero, rfl⟩
  | exited => cases hstep

/-- **One step** of a CPU keeps its events in slices. -/
theorem Sliced.step (hslot : 1 ≤ timeSlot) {c c' : Cpu} {a : Answers} {es : List Event}
    (h : Sliced timeSlot c es) (hstep : cpuRoutine timeSlot c a = some c') :
    Sliced timeSlot c' (es ++ events c a) := by
  obtain ⟨slices, rest, rfl, hslices, hlocal⟩ := h
  obtain hcont | ⟨hslice, hover⟩ := hlocal.step hslot hstep
  · exact ⟨slices, _, List.append_assoc _ _ _, hslices, hcont⟩
  · refine ⟨slices ++ [rest ++ events c a], [], by simp, ?_, hover⟩
    intro s hs
    rw [List.mem_append, List.mem_singleton] at hs
    cases hs with
    | inl hs => exact hslices s hs
    | inr hs => exact hs ▸ hslice

theorem sliced_start (timeSlot : ℤ) : Sliced timeSlot ⟨.head, none, 0⟩ [] :=
  ⟨[], [], rfl, fun _ hs => absurd hs List.not_mem_nil, rfl, rfl⟩

/-- At the head of the loop the counter is in range, and zero if the CPU holds no process. -/
theorem Local.timeLeft_head {c : Cpu} {rest : List Event} (hslot : 1 ≤ timeSlot)
    (h : Local timeSlot c rest) (hhead : c.line = .head) :
    0 ≤ c.timeLeft ∧ c.timeLeft ≤ timeSlot ∧ (c.proc = none → c.timeLeft = 0) := by
  rcases c with ⟨line, proc, timeLeft⟩
  obtain rfl : line = .head := hhead
  cases proc with
  | none =>
      have hzero : timeLeft = 0 := h.1
      exact ⟨hzero.ge, hzero.le.trans (by omega), fun _ => hzero⟩
  | some p =>
      obtain ⟨k, -, h0, hsum⟩ := h
      exact ⟨h0, by omega, fun hnone => by cases hnone⟩

/-- What is not a whole slice yet is the beginning of one. -/
theorem Local.rest_eq {c : Cpu} {rest : List Event} (h : Local timeSlot c rest) :
    rest = [] ∨ ∃ p k : ℕ, rest = ticks p k ∧ (k : ℤ) ≤ timeSlot := by
  have hbegun : ∀ p, Running timeSlot p c.timeLeft rest →
      ∃ p k : ℕ, rest = ticks p k ∧ (k : ℤ) ≤ timeSlot := by
    intro p hrunning
    obtain ⟨k, hrest, h0, hsum⟩ := hrunning
    exact ⟨p, k, hrest, by omega⟩
  rcases c with ⟨line, proc, timeLeft⟩
  cases proc with
  | none => cases line <;> exact Or.inl h.2
  | some p =>
      cases line with
      | head => exact Or.inr (hbegun p h)
      | slot => exact Or.inr (hbegun p h)
      | putRunning => exact Or.inr (hbegun p h.2)
      | putReady => exact Or.inr (hbegun p h.2)
      | run => exact Or.inr (hbegun p h.2)
      | check => exact h.imp (fun hfresh => hfresh.2) fun hon => hbegun p hon.2
      | load => exact Or.inl h.2
      | reload => exact Or.inl h.2
      | detach => exact Or.inl h.2
      | exited => exact Or.inl h.2

/-- **Time slices are exact**: whatever `get_proc` answers, whenever `done` is set and whenever
processes turn out to be finished, at the head of the loop `time_left` is in range, and zero
if the CPU holds no process; and the events are whole slices, followed by nothing or by the
beginning of a slice. -/
theorem slices_exact (hslot : 1 ≤ timeSlot) {answers : List Answers} {c : Cpu}
    (hrun : (cpuSystem timeSlot).run ⟨.head, none, 0⟩ answers = some c) :
    (c.line = .head →
      0 ≤ c.timeLeft ∧ c.timeLeft ≤ timeSlot ∧ (c.proc = none → c.timeLeft = 0)) ∧
    ∃ (slices : List (List Event)) (rest : List Event),
      log timeSlot ⟨.head, none, 0⟩ answers = slices.flatten ++ rest ∧
      (∀ s ∈ slices, Slice timeSlot s) ∧
      (rest = [] ∨ ∃ p k : ℕ, rest = ticks p k ∧ (k : ℤ) ≤ timeSlot) := by
  have hsliced : Sliced timeSlot c (log timeSlot ⟨.head, none, 0⟩ answers) := by
    refine (cpuSystem timeSlot).trace_invariant events
      (P := fun c os => Sliced timeSlot c os.flatten) ?_ hrun (sliced_start timeSlot)
    intro c os a c' hc hstep
    rw [List.flatten_append, List.flatten_singleton]
    exact hc.step hslot hstep
  obtain ⟨slices, rest, hlog, hslices, hlocal⟩ := hsliced
  exact ⟨hlocal.timeLeft_head hslot, slices, rest, hlog, hslices, hlocal.rest_eq⟩

theorem slices_exact_two :
    ∃ c, (cpuSystem 2).run ⟨.head, none, 0⟩ (List.replicate 16 ⟨false, some 5, false⟩) = some c ∧
      0 ≤ c.timeLeft ∧ c.timeLeft ≤ 2 := by
  have hrun : (cpuSystem 2).run ⟨.head, none, 0⟩ (List.replicate 16 ⟨false, some 5, false⟩) =
      some ⟨.head, some 5, 1⟩ := by decide
  have hrange := (slices_exact (by decide) hrun).1 rfl
  exact ⟨_, hrun, hrange.1, hrange.2.1⟩

/-! ## The CPUs of the system -/

section System

variable {μ : Type u} {cfg : Config μ} {n : ℕ}

/-- What CPU `i` learns in a state of the system. -/
def answersOf (cfg : Config μ) (w : World μ n) (i : Fin n) : Answers where
  ended := (w.cpu i).proc.any fun p => w.pc p = (cfg.code p).length
  got := (getProc cfg.prio w.sched).1
  done := w.done

/-- **A step of a CPU of the system** is a step of `cpu_routine` with these inputs, and no other
CPU moves. -/
theorem cpuStep_refines {w v : World μ n} {i : Fin n} (h : cpuStep cfg w i = some v) :
    cpuRoutine cfg.timeSlot (w.cpu i) (answersOf cfg w i) = some (v.cpu i) ∧
      ∀ j, j ≠ i → v.cpu j = w.cpu j := by
  refine ⟨?_, fun j hj => (cpuStep_cases h).cpu_of_ne hj⟩
  have hline := cpuStep_lines h
  rcases hcpu : w.cpu i with ⟨line, proc, timeLeft⟩
  rw [hcpu] at hline
  -- The head of the loop asks whether the process has finished.
  have hended : ∀ p, proc = some p →
      (answersOf cfg w i).ended = decide (w.pc p = (cfg.code p).length) := by
    rintro p rfl
    rw [answersOf, hcpu]
    rfl
  cases hline with
  | headFinished p _ hpc => simp [cpuRoutine, hended p rfl, hpc]
  | headOver p hpc => simp [cpuRoutine, hended p rfl, hpc]
  | headOn p _ hpc hon => simp [cpuRoutine, hended p rfl, hpc, hon]
  | headEmpty | load | putRunning | putReady | reload | checkEmpty | check | run | slot | detach =>
      rw [World.cpu_setCpu_self]
      rfl

/-- What a step of the system does to the process on CPU `i`. -/
def osEvents (cfg : Config μ) (i : Fin cfg.numCpus) (w : World μ cfg.numCpus)
    (l : Label cfg.numCpus) : List Event :=
  if l = .cpu i then events (w.cpu i) (answersOf cfg w i) else []

/-- **Time slices in the system**: in every interleaving the events of each CPU are in slices. -/
theorem sliced_run (hslot : 1 ≤ cfg.timeSlot) {w v : World μ cfg.numCpus}
    {ls : List (Label cfg.numCpus)} (hinit : (osSystem cfg).init w)
    (hrun : (osSystem cfg).run w ls = some v) (i : Fin cfg.numCpus) :
    Sliced cfg.timeSlot (v.cpu i) ((osSystem cfg).trace (osEvents cfg i) w ls).flatten := by
  refine (osSystem cfg).trace_invariant (osEvents cfg i)
    (P := fun w os => Sliced cfg.timeSlot (w.cpu i) os.flatten) ?_ hrun ?_
  · intro w os l v hw hstep
    rw [List.flatten_append, List.flatten_singleton]
    by_cases hl : l = .cpu i
    · subst hl
      rw [osEvents, if_pos rfl]
      exact hw.step hslot (cpuStep_refines hstep).1
    · rw [osEvents, if_neg hl, List.append_nil, osStep_cpu_of_ne hl hstep]
      exact hw
  · obtain ⟨mem, rfl⟩ := hinit
    exact sliced_start cfg.timeSlot

/-- At the head of its loop every CPU of the system has a counter in range. -/
theorem timeLeft_head (hslot : 1 ≤ cfg.timeSlot) {w : World μ cfg.numCpus}
    (h : (osSystem cfg).Reachable w) {i : Fin cfg.numCpus} (hhead : (w.cpu i).line = .head) :
    0 ≤ (w.cpu i).timeLeft ∧ (w.cpu i).timeLeft ≤ cfg.timeSlot ∧
      ((w.cpu i).proc = none → (w.cpu i).timeLeft = 0) := by
  obtain ⟨w₀, ls, hinit, hrun⟩ := h
  obtain ⟨slices, rest, -, -, hlocal⟩ := sliced_run hslot hinit hrun i
  exact hlocal.timeLeft_head hslot hhead

end System
end SimOs.Os
