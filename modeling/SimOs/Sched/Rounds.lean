import SimOs.Sched.Quota

/-!
# Rounds

`slot` counts, for each priority, what has been dequeued in the current round, and a
round ends when a scan from the mark to the last priority misses.  The events of a call
are read off the trips of `get_mlq_proc`: a process leaves a queue, or the slots are
cleared.  Along any run the log of these events accounts for the slots.

Before the first reset there is no round: `init_scheduler` leaves every quota used up,
so the first call can only reset.

## Main definitions

* `Event`, `callEvents`, `eventLog`: what the calls do to the slots.
* `Effect`, `pass_effect`: the meaning of one event.
* `Accounted`: the invariant.
* `quota_accounting`: what it says of every run.
-/

namespace SimOs.Sched

universe u
variable {α : Type u} {prio : α → ℕ}

/-- What a trip of `get_mlq_proc` does to the slots. -/
inductive Event (α : Type u)
  /-- `dequeue(&mlq_ready_queue[q])` and `slot[q]++`. -/
  | dequeue (q : ℕ)
  /-- `slot[j] = 0` for every `j`, after the scan of a trip that began in state `s`. -/
  | reset (s : Sched α)

section Events
variable (prio)

/-- The event of one trip, if there is one. -/
def passEvents (s : Sched α) : List (Event α) :=
  if s.flag then
    match forLoop prio (maxPrio - s.markedPrior) s with
    | .ret _ t => [.dequeue t.markedPrior]
    | .goto _ => [.reset s]
  else if s.Eligible s.markedPrior then [.dequeue s.markedPrior]
  else []

/-- The events of `get_mlq_proc` with at most `n` trips. -/
def getEvents : ℕ → Sched α → List (Event α)
  | 0, _ => []
  | n + 1, s =>
      passEvents prio s ++
        match pass prio s with
        | .ret _ _ => []
        | .goto t => getEvents n t

/-- The events of a call. -/
def callEvents (s : Sched α) : Call α → List (Event α)
  | .addProc _ => []
  | .putProc _ => []
  | .getProc => getEvents prio 3 s

/-- The events of a run from `init_scheduler`, in order. -/
def eventLog (calls : List (Call α)) : List (Event α) :=
  ((callSystem prio).trace (callEvents prio) initScheduler calls).flatten

end Events

/-- The number of processes dequeued from queue `p`. -/
def dequeues (p : ℕ) (log : List (Event α)) : ℕ :=
  log.countP fun e => match e with
    | .dequeue q => q = p
    | .reset _ => false

/-- A part of the log within one round. -/
def NoReset (log : List (Event α)) : Prop := ∀ s, .reset s ∉ log

theorem dequeues_concat (p q : ℕ) (log : List (Event α)) :
    dequeues p (log ++ [.dequeue q]) = dequeues p log + if q = p then 1 else 0 := by
  simp [dequeues, List.countP_append, List.countP_cons]

theorem dequeues_reset (p : ℕ) (s : Sched α) (log : List (Event α)) :
    dequeues p (log ++ [.reset s]) = dequeues p log := by
  simp [dequeues, List.countP_append]

/-! ## The meaning of an event -/

/-- One event leads from `s` to `t`, as far as slots and ready queues go. -/
inductive Effect (prio : α → ℕ) (s t : Sched α) : Event α → Prop
  | dequeue (q : ℕ) (hq : s.Eligible q) (hslot : t.slot = (s.takeFrom prio q).2.slot)
      (hqueue : t.mlqReadyQueue = (s.takeFrom prio q).2.mlqReadyQueue) :
      Effect prio s t (.dequeue q)
  | reset (hmiss : ∀ q, s.markedPrior ≤ q → q < maxPrio → ¬ s.Eligible q)
      (hslot : t.slot = fun _ => 0) (hqueue : t.mlqReadyQueue = s.mlqReadyQueue) :
      Effect prio s t (.reset s)

/-- The state in which a trip ends. -/
def Jump.state : Jump α → Sched α
  | .ret _ s => s
  | .goto s => s

variable (prio) in
/-- **One trip** has one event with its effect, or only raises `flag`. -/
theorem pass_effect {s : Sched α} (hmark : s.markedPrior ≤ maxPrio) :
    (∃ e, passEvents prio s = [e] ∧ Effect prio s (pass prio s).state e) ∨
    passEvents prio s = [] ∧ (pass prio s).state = { s with flag := true } := by
  by_cases hflag : s.flag = true
  · left
    have hend : s.markedPrior + (maxPrio - s.markedPrior) = maxPrio := by omega
    have hcases := forLoop_cases prio (maxPrio - s.markedPrior) s
    rw [hend] at hcases
    rw [passEvents, if_pos hflag, pass, if_pos hflag]
    rcases hcases with ⟨q, _, _, hq, _, heq⟩ | ⟨hmiss, heq⟩
    · rw [heq]
      exact ⟨_, rfl, .dequeue q hq rfl rfl⟩
    · rw [heq]
      refine ⟨_, rfl, ?_⟩
      dsimp only
      split
      · exact .reset hmiss rfl rfl
      · exact .reset hmiss rfl rfl
  · rw [passEvents, if_neg hflag, pass, if_neg hflag]
    by_cases hq : s.Eligible s.markedPrior
    · rw [if_pos hq, if_pos hq]
      exact Or.inl ⟨_, rfl, .dequeue _ hq rfl rfl⟩
    · rw [if_neg hq, if_neg hq]
      exact Or.inr ⟨rfl, rfl⟩

variable (prio) in
/-- A jump back to `label` leaves the mark in range. -/
theorem markedPrior_goto {s t : Sched α} (hmark : s.markedPrior ≤ maxPrio)
    (h : pass prio s = .goto t) : t.markedPrior ≤ maxPrio := by
  by_cases hflag : s.flag = true
  · rcases pass_scan prio hflag hmark with ⟨q, _, _, _, _, heq⟩ | ⟨_, heq⟩
    · cases heq.symm.trans h
    · rw [heq] at h
      split at h
      · cases h
      · obtain rfl := Jump.goto.inj h
        exact Nat.zero_le _
  · rw [pass, if_neg hflag] at h
    split at h
    · cases h
    · obtain rfl := Jump.goto.inj h
      exact hmark

variable (prio) in
/-- **The trip rule**: what one trip preserves of a state and a log, a call of
`get_mlq_proc` preserves. -/
theorem getMlqProcFuel_induction {P : Sched α → List (Event α) → Prop}
    (htrip : ∀ s log, s.markedPrior ≤ maxPrio → P s log →
      P (pass prio s).state (log ++ passEvents prio s))
    {n : ℕ} {s : Sched α} {r : Option α × Sched α} {log : List (Event α)}
    (hmark : s.markedPrior ≤ maxPrio) (h : getMlqProcFuel prio n s = some r) (hs : P s log) :
    P r.2 (log ++ getEvents prio n s) := by
  induction n generalizing s log with
  | zero => cases h
  | succ n ih =>
      have hone := htrip s log hmark hs
      rw [getMlqProcFuel] at h
      rw [getEvents]
      cases hpass : pass prio s with
      | ret proc t =>
          rw [hpass] at h hone
          obtain rfl := Option.some.inj h
          rwa [List.append_nil]
      | goto t =>
          rw [hpass] at h hone
          rw [← List.append_assoc]
          exact ih (markedPrior_goto prio hmark hpass) h hone

/-- The log of a call of `get_mlq_proc`. -/
theorem getMlqProc_induction {P : Sched α → List (Event α) → Prop}
    (htrip : ∀ s log, s.markedPrior ≤ maxPrio → P s log →
      P (pass prio s).state (log ++ passEvents prio s))
    {s : Sched α} {log : List (Event α)} (hmark : s.markedPrior < maxPrio) (hs : P s log) :
    P (getMlqProc prio s).2 (log ++ callEvents prio s .getProc) := by
  obtain ⟨r, hr, -⟩ := getMlqProcFuel_three prio hmark
  have hrun := getMlqProcFuel_induction prio htrip hmark.le hr hs
  rw [getMlqProc, hr]
  exact hrun

/-- The events tell how many processes a call takes out of each queue. -/
theorem size_getMlqProc {s : Sched α} (h : s.Counters) (q : ℕ) :
    ((getMlqProc prio s).2.mlqReadyQueue q).size +
      dequeues q (callEvents prio s .getProc) = (s.mlqReadyQueue q).size := by
  have hcall : ((getMlqProc prio s).2.mlqReadyQueue q).size +
      dequeues q ([] ++ callEvents prio s .getProc) = (s.mlqReadyQueue q).size :=
    getMlqProc_induction
      (P := fun t log => (t.mlqReadyQueue q).size + dequeues q log = (s.mlqReadyQueue q).size)
      ?_ h.mark_lt rfl
  · rwa [List.nil_append] at hcall
  · intro t log hmark ht
    rcases pass_effect prio hmark with ⟨e, hev, heff⟩ | ⟨hev, hstate⟩
    · rw [hev]
      cases heff with
      | dequeue p hp _ hqueue =>
          rw [hqueue, mlqReadyQueue_takeFrom, dequeues_concat]
          rcases eq_or_ne q p with rfl | hne
          · have := Queue.size_dequeue prio hp.1
            rw [Function.update_self, if_pos rfl]
            omega
          · rw [Function.update_of_ne hne, if_neg hne.symm]
            exact ht
      | reset _ _ hqueue =>
          rw [hqueue, dequeues_reset]
          exact ht
    · rw [hev, hstate, List.append_nil]
      exact ht

/-! ## The accounts -/

/-- The log accounts for the slots. -/
structure Accounted (slot : ℕ → ℤ) (log : List (Event α)) : Prop where
  slot_le : ∀ p, p < maxPrio → slot p ≤ maxPrio - p
  slot_eq : ∀ before u after, log = before ++ .reset u :: after → NoReset after →
    ∀ p, p < maxPrio → slot p = dequeues p after
  round : ∀ before u mid v after, log = before ++ .reset u :: (mid ++ .reset v :: after) →
    NoReset mid → ∀ p, p < maxPrio → dequeues p mid ≤ maxPrio - p
  miss : ∀ u, .reset u ∈ log → ∀ q, u.markedPrior ≤ q → q < maxPrio → ¬ u.Eligible q

/-- Where an element of a list with a new last element stands. -/
theorem concat_eq_append_cons {log before after : List (Event α)} {e a : Event α}
    (h : log ++ [e] = before ++ a :: after) :
    (after = [] ∧ a = e ∧ before = log) ∨
      ∃ rest, after = rest ++ [e] ∧ log = before ++ a :: rest := by
  rcases List.eq_nil_or_concat after with rfl | ⟨rest, b, rfl⟩
  · obtain ⟨hlog, he⟩ := List.append_inj' h rfl
    exact Or.inl ⟨rfl, (List.singleton_inj.mp he).symm, hlog.symm⟩
  · rw [List.concat_eq_append, ← List.cons_append, ← List.append_assoc] at h
    obtain ⟨hlog, he⟩ := List.append_inj' h rfl
    obtain rfl := List.singleton_inj.mp he
    exact Or.inr ⟨rest, List.concat_eq_append, hlog⟩

/-- A dequeue within the quota. -/
theorem Accounted.dequeue {slot : ℕ → ℤ} {log : List (Event α)} (h : Accounted slot log) {q : ℕ}
    (hq : slot q < maxPrio - q) :
    Accounted (Function.update slot q (slot q + 1)) (log ++ [.dequeue q]) where
  slot_le p hp := by
    rcases eq_or_ne p q with rfl | hne
    · rw [Function.update_self]
      omega
    · rw [Function.update_of_ne hne]
      exact h.slot_le p hp
  slot_eq before u after hlog hnone p hp := by
    rcases concat_eq_append_cons hlog with ⟨-, he, -⟩ | ⟨rest, rfl, hold⟩
    · cases he
    · have hrest := h.slot_eq before u rest hold
        (fun s hs => hnone s (List.mem_append_left _ hs)) p hp
      rw [dequeues_concat]
      rcases eq_or_ne p q with rfl | hne
      · rw [Function.update_self, if_pos rfl, hrest]
        push_cast
        rfl
      · rw [Function.update_of_ne hne, if_neg hne.symm, hrest]
        rfl
  round before u mid v after hlog hnone p hp := by
    rw [← List.cons_append, ← List.append_assoc] at hlog
    rcases concat_eq_append_cons hlog with ⟨-, he, -⟩ | ⟨rest, rfl, hold⟩
    · cases he
    · rw [List.append_assoc, List.cons_append] at hold
      exact h.round before u mid v rest hold hnone p hp
  miss u hu := by
    rcases List.mem_append.mp hu with hu | hu
    · exact h.miss u hu
    · cases List.mem_singleton.mp hu

/-- A reset after a scan that missed. -/
theorem Accounted.reset {slot : ℕ → ℤ} {log : List (Event α)} (h : Accounted slot log)
    {s : Sched α} (hmiss : ∀ q, s.markedPrior ≤ q → q < maxPrio → ¬ s.Eligible q) :
    Accounted (fun _ => 0) (log ++ [.reset s]) where
  slot_le p hp := by omega
  slot_eq before u after hlog hnone p _ := by
    rcases concat_eq_append_cons hlog with ⟨rfl, -, -⟩ | ⟨rest, rfl, -⟩
    · rfl
    · exact absurd (List.mem_append_right rest List.mem_cons_self) (hnone s)
  round before u mid v after hlog hnone p hp := by
    rw [← List.cons_append, ← List.append_assoc] at hlog
    rcases concat_eq_append_cons hlog with ⟨-, -, hold⟩ | ⟨rest, rfl, hold⟩
    · -- The round that this reset ends: its dequeues are in the slots.
      have hslot := h.slot_eq before u mid hold.symm hnone p hp
      have hle := h.slot_le p hp
      omega
    · rw [List.append_assoc, List.cons_append] at hold
      exact h.round before u mid v rest hold hnone p hp
  miss u hu := by
    rcases List.mem_append.mp hu with hu | hu
    · exact h.miss u hu
    · obtain rfl := Event.reset.inj (List.mem_singleton.mp hu)
      exact hmiss

/-- **One trip** keeps the accounts. -/
theorem Accounted.pass {s : Sched α} {log : List (Event α)} (h : Accounted s.slot log)
    (hmark : s.markedPrior ≤ maxPrio) :
    Accounted (pass prio s).state.slot (log ++ passEvents prio s) := by
  rcases pass_effect prio hmark with ⟨e, hev, heff⟩ | ⟨hev, hstate⟩
  · rw [hev]
    cases heff with
    | dequeue q hq hslot _ =>
        rw [hslot, slot_takeFrom]
        exact h.dequeue hq.2
    | reset hmiss hslot _ =>
        rw [hslot]
        exact h.reset hmiss
  · rw [hev, hstate, List.append_nil]
    exact h

variable (prio) in
/-- **One call** keeps the accounts. -/
theorem Accounted.call {s t : Sched α} {log : List (Event α)} (h : Accounted s.slot log)
    (hs : s.Counters) {c : Call α} (hc : call prio s c = some t) :
    Accounted t.slot (log ++ callEvents prio s c) := by
  cases c with
  | addProc p =>
      obtain ⟨-, -, -, hslot⟩ := putProc_counters prio (s := s) (p := p) hc
      rwa [callEvents, List.append_nil, hslot]
  | putProc p =>
      obtain ⟨-, -, -, hslot⟩ := putProc_counters prio (s := s) (p := p) hc
      rwa [callEvents, List.append_nil, hslot]
  | getProc =>
      obtain rfl := Option.some.inj hc
      exact getMlqProc_induction (P := fun s log => Accounted s.slot log)
        (fun _ _ hmark h => h.pass hmark) hs.mark_lt h

theorem accounted_initScheduler :
    Accounted (initScheduler : Sched α).slot ([] : List (Event α)) where
  slot_le _ _ := le_rfl
  slot_eq _ _ _ hlog := by simp at hlog
  round _ _ _ _ _ hlog := by simp at hlog
  miss _ hu := by cases hu

/-- **Every run** keeps the accounts. -/
theorem run_accounted {calls : List (Call α)} {s : Sched α}
    (h : (callSystem prio).run initScheduler calls = some s) :
    Accounted s.slot (eventLog prio calls) := by
  have hinv := (callSystem prio).trace_invariant (callEvents prio)
    (P := fun s logs => s.Counters ∧ Accounted s.slot logs.flatten) ?_ h
    ⟨Or.inl fresh_initScheduler, accounted_initScheduler⟩
  · exact hinv.2
  · rintro s logs c t ⟨hs, hlog⟩ hc
    rw [List.flatten_append, List.flatten_singleton]
    exact ⟨hs.call hc, hlog.call prio hs hc⟩

/-- **Quota accounting**: in every run, between two consecutive resets no queue `p` is
dequeued from more than `MAX_PRIO - p` times; after a reset, `slot[p]` is the number of
dequeues from `p` since the last one; and a reset happens only when no queue from the
mark on is non-empty with quota left. -/
theorem quota_accounting {calls : List (Call α)} {s : Sched α}
    (h : (callSystem prio).run initScheduler calls = some s) :
    (∀ before u mid v after,
      eventLog prio calls = before ++ .reset u :: (mid ++ .reset v :: after) →
      NoReset mid → ∀ p, p < maxPrio → dequeues p mid ≤ maxPrio - p) ∧
    (∀ before u after, eventLog prio calls = before ++ .reset u :: after → NoReset after →
      ∀ p, p < maxPrio → s.slot p = dequeues p after) ∧
    ∀ u, .reset u ∈ eventLog prio calls → ∀ q, u.markedPrior ≤ q → q < maxPrio →
      ¬ ((u.mlqReadyQueue q).size ≠ 0 ∧ u.slot q < (maxPrio : ℤ) - q) := by
  have hacc := run_accounted h
  exact ⟨hacc.round, hacc.slot_eq, hacc.miss⟩

/-- Two rounds: the quota of 1 of priority 139 is used up twice. -/
def lowest : List (Call ℕ) := [.getProc, .addProc 139, .getProc, .putProc 139, .getProc]

theorem quota_accounting_lowest :
    ∃ s, (callSystem id).run initScheduler lowest = some s ∧
      ∀ before u mid v after,
        eventLog id lowest = before ++ .reset u :: (mid ++ .reset v :: after) →
        NoReset mid → dequeues 139 mid ≤ 1 := by
  have hrun : ((callSystem id).run (initScheduler : Sched ℕ) lowest).isSome := by decide +kernel
  obtain ⟨s, hs⟩ := Option.isSome_iff_exists.mp hrun
  refine ⟨s, hs, ?_⟩
  intro before u mid v after hlog hnone
  exact (quota_accounting hs).1 before u mid v after hlog hnone 139 (by decide)

end SimOs.Sched
