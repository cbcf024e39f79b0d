import SimOs.Lib.Transition
import Mathlib.Algebra.Order.Ring.Nat

/-!
# Simulations and clocks

A system that is composed of others runs each of them: seen from one component, a
step of the whole is a few steps of that component, often none.  `Simulates` says this
of a projection, and whatever holds in every reachable state of the component
then holds in every reachable state of the whole.

A clock bounds the length of a run in the other direction.  If the steps that leave
the clock alone lower a rank, and a tick raises the rank to a bound at most, then a
long run is one in which the clock has moved far.

## Main definitions

* `Lts.Simulates`: the steps of one system are steps of another.
* `Lts.Reachable.invariant_of`: the invariant rule over invariants known already.
* `Lts.length_le_of_clock`: the clock rule.
-/

universe u v w x

namespace Lts

variable {σ : Type u} {ι : Type v} {τ : Type w} {κ : Type x}

/-- Seen through `f`, every step of `M` is a run of `N`. -/
structure Simulates (N : Lts τ κ) (M : Lts σ ι) (f : σ → τ) : Prop where
  init : ∀ s, M.init s → N.init (f s)
  step : ∀ s l t, M.step s l = some t → ∃ ls, N.run (f s) ls = some (f t)

namespace Simulates
variable {N : Lts τ κ} {M : Lts σ ι} {f : σ → τ}

/-- **A run of the whole is a run of the component.** -/
theorem run (h : N.Simulates M f) {s t : σ} {ls : List ι} (hrun : M.run s ls = some t) :
    ∃ ls', N.run (f s) ls' = some (f t) := by
  induction ls generalizing s with
  | nil =>
      simp only [run_nil, Option.some.injEq] at hrun
      exact ⟨[], by rw [run_nil, hrun]⟩
  | cons l ls ih =>
      rw [run_cons, Option.bind_eq_some_iff] at hrun
      obtain ⟨u, hu, hrest⟩ := hrun
      obtain ⟨first, hfirst⟩ := h.step s l u hu
      obtain ⟨rest, hrest'⟩ := ih hrest
      exact ⟨first ++ rest, N.run_append_eq_some.mpr ⟨f u, hfirst, hrest'⟩⟩

/-- **What the whole reaches, the component reaches.** -/
theorem reachable (h : N.Simulates M f) {s : σ} (hs : M.Reachable s) : N.Reachable (f s) := by
  obtain ⟨s₀, ls, h₀, hrun⟩ := hs
  obtain ⟨ls', hrun'⟩ := h.run hrun
  exact ⟨f s₀, ls', h.init s₀ h₀, hrun'⟩

end Simulates

variable {M : Lts σ ι}

/-- Where a system starts does not matter to a run. -/
theorem run_congr {N : Lts σ ι} (h : M.step = N.step) (s : σ) (ls : List ι) :
    M.run s ls = N.run s ls := by
  induction ls generalizing s with
  | nil => rfl
  | cons l ls ih =>
      rw [run_cons, run_cons, h]
      exact Option.bind_congr fun t _ => ih t

/-- **The invariant rule over known invariants**: a step may use that it begins in a reachable
state. -/
theorem Reachable.invariant_of {P : σ → Prop} (hinit : ∀ s, M.init s → P s)
    (hstep : ∀ s l t, M.Reachable s → P s → M.step s l = some t → P t) {s : σ}
    (h : M.Reachable s) : P s := by
  have hboth : M.Reachable s ∧ P s := by
    refine h.invariant (P := fun s => M.Reachable s ∧ P s) ?_ ?_
    · intro s hs
      exact ⟨.of_init hs, hinit s hs⟩
    · intro s l t hs hl
      exact ⟨hs.1.step hl, hstep s l t hs.1 hs.2 hl⟩
  exact hboth.2

/-- **The clock rule**: if every step leaves the clock alone and lowers the rank, or moves the
clock by one and leaves a rank of at most `B`, then the clock counts a run in units of `B + 1`
steps. -/
theorem length_le_of_clock (M : Lts σ ι) {P : σ → Prop} (clock rank : σ → ℕ) (B : ℕ)
    (hstep : ∀ s l t, P s → M.step s l = some t → P t ∧
      (clock t = clock s ∧ rank t + 1 ≤ rank s ∨ clock t = clock s + 1 ∧ rank t ≤ B))
    {s t : σ} {ls : List ι} (h : M.run s ls = some t) (hs : P s) :
    clock s ≤ clock t ∧ ls.length + clock s * (B + 1) ≤ clock t * (B + 1) + rank s := by
  induction ls generalizing s with
  | nil =>
      simp only [run_nil, Option.some.injEq] at h
      subst h
      exact ⟨le_rfl, by simp⟩
  | cons l ls ih =>
      rw [run_cons, Option.bind_eq_some_iff] at h
      obtain ⟨u, hu, hrun⟩ := h
      obtain ⟨hPu, hmove⟩ := hstep s l u hs hu
      obtain ⟨hle, hlen⟩ := ih hrun hPu
      rw [List.length_cons]
      rcases hmove with ⟨hclock, hrank⟩ | ⟨hclock, hrank⟩
      · rw [hclock] at hle hlen
        exact ⟨hle, by omega⟩
      · -- A tick pays for itself and for the rank that it leaves.
        rw [hclock, Nat.add_mul, Nat.one_mul] at hlen
        exact ⟨by omega, by omega⟩

end Lts
