import Mathlib.Logic.Function.Basic
import Mathlib.Data.List.Basic

/-!
# Labelled transition systems

A system is a set of initial states and a step that, given a label, either moves
or refuses.  The label decides who moves and with which arguments, so an
interleaving of several parties is nothing but a list of labels, and a refused
step models a blocked party or undefined behaviour.

The rules below are the ones every safety proof goes through: an invariant is
established initially and by one step, and holds of every reachable state; a
measure that every step lowers bounds the length of a run.

## Main definitions

* `Lts σ ι`: a labelled transition system over states `σ` and labels `ι`.
* `Lts.run`: follow a list of labels.
* `Lts.Reachable`: reached from an initial state by some run.
* `Lts.Reachable.invariant`, `Lts.run_invariant`: the invariant rules.
* `Lts.length_le_of_measure`: the counting rule.
* `Lts.trace`, `Lts.trace_invariant`: what is observed along a run, and its rule.
* `Lts.trace_iff`: the exact condition under which all steps of a run are right.
* `Lts.states`, `Lts.states_iff`: the exact condition under which a property survives.
-/

universe u v w

/-- A labelled transition system.  `step s l = none` means that `l` is blocked,
or undefined, in `s`. -/
structure Lts (σ : Type u) (ι : Type v) where
  /-- The states a run may start in. -/
  init : σ → Prop
  /-- The effect of one label. -/
  step : σ → ι → Option σ

namespace Lts

variable {σ : Type u} {ι : Type v} (M : Lts σ ι)

/-- Follow the labels from left to right. -/
def run : σ → List ι → Option σ
  | s, [] => some s
  | s, l :: ls => (M.step s l).bind fun t => run t ls

@[simp] theorem run_nil (s : σ) : M.run s [] = some s := rfl

theorem run_cons (s : σ) (l : ι) (ls : List ι) :
    M.run s (l :: ls) = (M.step s l).bind fun t => M.run t ls := rfl

theorem run_cons_of_step {s t : σ} {l : ι} (h : M.step s l = some t) (ls : List ι) :
    M.run s (l :: ls) = M.run t ls := by
  rw [run_cons, h]; rfl

theorem run_append (s : σ) (ls ls' : List ι) :
    M.run s (ls ++ ls') = (M.run s ls).bind fun t => M.run t ls' := by
  induction ls generalizing s with
  | nil => rfl
  | cons l ls ih =>
      rw [List.cons_append, run_cons, run_cons]
      cases M.step s l with
      | none => rfl
      | some t => simpa using ih t

theorem run_concat (s : σ) (ls : List ι) (l : ι) :
    M.run s (ls ++ [l]) = (M.run s ls).bind fun t => M.step t l := by
  rw [run_append]
  cases M.run s ls with
  | none => rfl
  | some t => cases h : M.step t l <;> simp [run_cons, h]

/-- The successful runs of a concatenation meet in a middle state. -/
theorem run_append_eq_some {s t : σ} {ls ls' : List ι} :
    M.run s (ls ++ ls') = some t ↔ ∃ u, M.run s ls = some u ∧ M.run u ls' = some t := by
  rw [run_append, Option.bind_eq_some_iff]

theorem run_concat_eq_some {s t : σ} {ls : List ι} {l : ι} :
    M.run s (ls ++ [l]) = some t ↔ ∃ u, M.run s ls = some u ∧ M.step u l = some t := by
  rw [run_concat, Option.bind_eq_some_iff]

/-- **The invariant rule along a run**: what one step preserves, a run preserves. -/
theorem run_invariant {P : σ → Prop} (hstep : ∀ s l t, P s → M.step s l = some t → P t)
    {s t : σ} {ls : List ι} (h : M.run s ls = some t) (hs : P s) : P t := by
  induction ls generalizing s with
  | nil =>
      simp only [run_nil, Option.some.injEq] at h
      exact h ▸ hs
  | cons l ls ih =>
      rw [run_cons, Option.bind_eq_some_iff] at h
      obtain ⟨u, hu, hrun⟩ := h
      exact ih hrun (hstep s l u hs hu)

/-- **The progress rule**: if no label is refused as long as an invariant holds, every list of
labels is a run. -/
theorem exists_run {P : σ → Prop} (hstep : ∀ s l, P s → ∃ t, M.step s l = some t ∧ P t) {s : σ}
    (hs : P s) (ls : List ι) : ∃ t, M.run s ls = some t ∧ P t := by
  induction ls generalizing s with
  | nil => exact ⟨s, rfl, hs⟩
  | cons l ls ih =>
      obtain ⟨u, hu, hPu⟩ := hstep s l hs
      obtain ⟨t, ht, hPt⟩ := ih hPu
      exact ⟨t, (M.run_cons_of_step hu ls).trans ht, hPt⟩

/-- **The counting rule**: a run is no longer than a measure that every one of its
steps lowers, as long as an invariant `P` that makes the steps lower it holds. -/
theorem length_le_of_measure {P : σ → Prop} (μ : σ → ℕ)
    (hstep : ∀ s l t, P s → M.step s l = some t → P t ∧ μ t + 1 ≤ μ s)
    {s t : σ} {ls : List ι} (h : M.run s ls = some t) (hs : P s) : ls.length ≤ μ s := by
  induction ls generalizing s with
  | nil => exact Nat.zero_le _
  | cons l ls ih =>
      rw [run_cons, Option.bind_eq_some_iff] at h
      obtain ⟨u, hu, hrun⟩ := h
      obtain ⟨hPu, hμ⟩ := hstep s l u hs hu
      have := ih hrun hPu
      rw [List.length_cons]
      omega

/-- What is observed along a run, one observation for each step. -/
def trace {β : Type w} (obs : σ → ι → β) : σ → List ι → List β
  | _, [] => []
  | s, l :: ls => (M.step s l).elim [] fun t => obs s l :: trace obs t ls

/-- **The invariant rule with a history**: what one step preserves of the state and the
observations so far, a run preserves. -/
theorem trace_invariant {β : Type w} (obs : σ → ι → β) {P : σ → List β → Prop}
    (hstep : ∀ s os l t, P s os → M.step s l = some t → P t (os ++ [obs s l]))
    {s t : σ} {ls : List ι} (h : M.run s ls = some t) (hs : P s []) :
    P t (M.trace obs s ls) := by
  have hrun : ∀ os s, P s os → M.run s ls = some t → P t (os ++ M.trace obs s ls) := by
    clear h hs
    induction ls with
    | nil =>
        intro os s hs h
        simp only [run_nil, Option.some.injEq] at h
        rw [trace, List.append_nil]
        exact h ▸ hs
    | cons l ls ih =>
        intro os s hs h
        rw [run_cons, Option.bind_eq_some_iff] at h
        obtain ⟨u, hu, hrest⟩ := h
        have hnext := ih _ u (hstep s os l u hs hu) hrest
        rwa [trace, hu, Option.elim_some, List.append_cons]
  exact hrun [] s hs h

/-- A condition on the labels only. -/
theorem forall_trace_label {C : ι → Prop} {s t : σ} {ls : List ι} (h : M.run s ls = some t) :
    (∀ x ∈ M.trace Prod.mk s ls, C x.2) ↔ ∀ l ∈ ls, C l := by
  induction ls generalizing s with
  | nil => simp [trace]
  | cons l ls ih =>
      rw [run_cons, Option.bind_eq_some_iff] at h
      obtain ⟨u, hu, hrun⟩ := h
      simp only [trace, hu, Option.elim_some, List.forall_mem_cons, ih hrun]

/-- **The rule of the exact condition, for steps**: if a step out of a good state is right
exactly under the condition `C`, and then leads to a good state, then all steps of a run are
right exactly if all meet `C`. -/
theorem trace_iff {J : σ → Prop} {P C : σ → ι → Prop}
    (hstep : ∀ s l t, J s → M.step s l = some t → (P s l ↔ C s l) ∧ (C s l → J t))
    {s t : σ} {ls : List ι} (h : M.run s ls = some t) (hJ : J s) :
    (∀ x ∈ M.trace Prod.mk s ls, P x.1 x.2) ↔ ∀ x ∈ M.trace Prod.mk s ls, C x.1 x.2 := by
  induction ls generalizing s with
  | nil => simp [trace]
  | cons l ls ih =>
      rw [run_cons, Option.bind_eq_some_iff] at h
      obtain ⟨u, hu, hrun⟩ := h
      obtain ⟨hone, hnext⟩ := hstep s l u hJ hu
      simp only [trace, hu, Option.elim_some, List.forall_mem_cons]
      constructor
      · intro hall
        have hC := hone.mp hall.1
        exact ⟨hC, (ih hrun (hnext hC)).mp hall.2⟩
      · intro hall
        exact ⟨hone.mpr hall.1, (ih hrun (hnext hall.1)).mpr hall.2⟩

/-- The states of a run, from the first to the last. -/
def states : σ → List ι → List σ
  | s, [] => [s]
  | s, l :: ls => s :: (M.step s l).elim [] fun t => states t ls

theorem mem_states_self (s : σ) (ls : List ι) : s ∈ M.states s ls := by
  cases ls with
  | nil => exact List.mem_singleton_self s
  | cons l ls => exact List.mem_cons_self

theorem mem_states_of_run {s t : σ} {ls : List ι} (h : M.run s ls = some t) :
    t ∈ M.states s ls := by
  induction ls generalizing s with
  | nil => exact List.mem_singleton.mpr (Option.some.inj h).symm
  | cons l ls ih =>
      rw [run_cons, Option.bind_eq_some_iff] at h
      obtain ⟨u, hu, hrun⟩ := h
      rw [states, hu, Option.elim_some]
      exact List.mem_cons_of_mem s (ih hrun)

/-- **The rule of the exact condition**: if a step out of a state with the property `P` keeps
it exactly under the condition `C`, then `P` holds all along a run exactly if all its
steps meet `C`. -/
theorem states_iff {J P : σ → Prop} {C : σ → ι → Prop}
    (hstep : ∀ s l t, J s → P s → M.step s l = some t → J t ∧ (P t ↔ C s l))
    {s t : σ} {ls : List ι} (h : M.run s ls = some t) (hJ : J s) (hP : P s) :
    (∀ u ∈ M.states s ls, P u) ↔ ∀ x ∈ M.trace Prod.mk s ls, C x.1 x.2 := by
  induction ls generalizing s with
  | nil =>
      simp only [states, trace, List.mem_singleton, forall_eq, List.not_mem_nil, false_imp_iff,
        implies_true, iff_true]
      exact hP
  | cons l ls ih =>
      rw [run_cons, Option.bind_eq_some_iff] at h
      obtain ⟨u, hu, hrun⟩ := h
      obtain ⟨hJu, hone⟩ := hstep s l u hJ hP hu
      simp only [states, trace, hu, Option.elim_some, List.forall_mem_cons]
      constructor
      · rintro ⟨-, hall⟩
        have hPu := hall u (M.mem_states_self u ls)
        exact ⟨hone.mp hPu, (ih hrun hJu hPu).mp hall⟩
      · rintro ⟨hC, hall⟩
        exact ⟨hP, (ih hrun hJu (hone.mpr hC)).mpr hall⟩

/-- The states some run reaches from an initial state. -/
def Reachable (s : σ) : Prop := ∃ s₀ ls, M.init s₀ ∧ M.run s₀ ls = some s

namespace Reachable
variable {M}

theorem of_init {s : σ} (h : M.init s) : M.Reachable s := ⟨s, [], h, rfl⟩

theorem step {s t : σ} {l : ι} (h : M.Reachable s) (hl : M.step s l = some t) :
    M.Reachable t := by
  obtain ⟨s₀, ls, h₀, hrun⟩ := h
  exact ⟨s₀, ls ++ [l], h₀, M.run_concat_eq_some.mpr ⟨s, hrun, hl⟩⟩

theorem run {s t : σ} {ls : List ι} (h : M.Reachable s) (hls : M.run s ls = some t) :
    M.Reachable t := by
  obtain ⟨s₀, ls₀, h₀, hrun⟩ := h
  exact ⟨s₀, ls₀ ++ ls, h₀, M.run_append_eq_some.mpr ⟨s, hrun, hls⟩⟩

/-- **The invariant rule**: what holds initially and is preserved by every step
holds in every reachable state. -/
theorem invariant {P : σ → Prop} (hinit : ∀ s, M.init s → P s)
    (hstep : ∀ s l t, P s → M.step s l = some t → P t) {s : σ} (h : M.Reachable s) : P s := by
  obtain ⟨s₀, ls, h₀, hrun⟩ := h
  exact M.run_invariant hstep hrun (hinit s₀ h₀)

end Reachable
end Lts
