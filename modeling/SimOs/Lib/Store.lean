import Mathlib.Algebra.BigOperators.Group.Finset.Piecewise
import Mathlib.Algebra.Order.Ring.Int
import Mathlib.Data.Fintype.Basic
import Mathlib.Data.Multiset.AddSub
import Mathlib.Tactic.Common

/-!
# Stores and what an update does to them

A store is a function from places to contents, and a step replaces the contents of one place
or of a block of them.

What all places hold together is a sum over the store, and the exchange rule says how one
replacement changes it.  Private cells may be kept in a store through a translation to its
places: if the translation is injective on the cells in use, each of them is a variable of its
own, so writing one changes what is seen at it and nowhere else.  And a loop that copies from
place `i` of one store to place `j` of another leaves, after `n` trips, `n` cells of the
source from `j` on and the others as before.

## Main definitions

* `sum_update_add`: the exchange rule.
* `View tr P store mem`: every cell of `P` is seen in the store as in `mem`.
* `View.write`: writing through the translation writes the cell.
* `View.congr`: changes elsewhere are not seen.
* `Copy.copied`: the destination after `n` trips.
* `Copy.update_copied`: one more trip.
* `Copy.copied_inside`, `Copy.copied_outside`: what it holds.
-/

universe u v w

/-! ## The sum over a store -/

/-- **The exchange rule**: after slot `i` of `g` received `v`, the old contents of `i`
count on one side and the new contents on the other. -/
theorem sum_update_add {ι : Type u} {β : Type v} {M : Type w} [DecidableEq ι]
    [AddCommMonoid M] {s : Finset ι} {i : ι} (hi : i ∈ s) (f : β → M) (g : ι → β) (v : β) :
    ∑ j ∈ s, f (Function.update g i v j) + f (g i) = ∑ j ∈ s, f (g j) + f v := by
  have hrest : ∑ j ∈ s.erase i, f (Function.update g i v j) = ∑ j ∈ s.erase i, f (g j) := by
    apply Finset.sum_congr rfl
    intro j hj
    rw [Function.update_of_ne (Finset.ne_of_mem_erase hj)]
  rw [← Finset.add_sum_erase _ _ hi, ← Finset.add_sum_erase _ (fun j => f (g j)) hi, hrest,
    Function.update_self, add_right_comm, add_comm (f v), add_right_comm]

/-! ## Private cells -/

/-- Every cell that satisfies `P` is kept at its place. -/
def View {κ : Type u} {δ : Type v} {β : Type w} (tr : κ → δ) (P : κ → Prop) (store : δ → β)
    (mem : κ → β) : Prop :=
  ∀ k, P k → store (tr k) = mem k

namespace View

variable {κ : Type u} {δ : Type v} {β : Type w} [DecidableEq κ] [DecidableEq δ]
  {tr : κ → δ} {P : κ → Prop} {store : δ → β} {mem : κ → β}

/-- **Writing** a cell through an injective translation. -/
theorem write (hinj : ∀ k l, P k → P l → tr k = tr l → k = l) (h : View tr P store mem) {k : κ}
    (hk : P k) (b : β) :
    View tr P (Function.update store (tr k) b) (Function.update mem k b) := by
  intro l hl
  rcases eq_or_ne l k with rfl | hne
  · rw [Function.update_self, Function.update_self]
  · rw [Function.update_of_ne hne, Function.update_of_ne fun heq => hne (hinj l k hl hk heq)]
    exact h l hl

omit [DecidableEq κ] [DecidableEq δ] in
/-- **What is not seen** may change, and fewer cells may be in use. -/
theorem congr {Q : κ → Prop} {tr' : κ → δ} {store' : δ → β} {mem' : κ → β}
    (h : View tr P store mem) (hPQ : ∀ k, Q k → P k)
    (hstore : ∀ k, Q k → store' (tr' k) = store (tr k)) (hmem : ∀ k, Q k → mem' k = mem k) :
    View tr' Q store' mem' :=
  fun k hk => (hstore k hk).trans ((h k (hPQ k hk)).trans (hmem k hk).symm)

end View

/-! ## Copying a block -/

namespace Copy

variable {β : Type u}

/-- The store `dst` with `n` cells of `src` from `i` on copied to `j` on. -/
def copied (src dst : ℤ → β) (i j : ℤ) (n : ℕ) : ℤ → β := fun a =>
  if j ≤ a ∧ a < j + n then src (i + (a - j)) else dst a

@[simp] theorem copied_zero (src dst : ℤ → β) (i j : ℤ) : copied src dst i j 0 = dst := by
  ext a
  rw [copied, if_neg (by omega)]

/-- **One more trip.** -/
theorem update_copied (src dst : ℤ → β) (i j : ℤ) (n : ℕ) :
    Function.update (copied src dst i j n) (j + n) (src (i + n)) =
      copied src dst i j (n + 1) := by
  ext a
  rcases eq_or_ne a (j + n) with rfl | hne
  · rw [Function.update_self, copied, if_pos (by omega)]
    congr 1
    omega
  · rw [Function.update_of_ne hne, copied, copied]
    congr 1
    simp only [eq_iff_iff]
    omega

theorem copied_inside (src dst : ℤ → β) (i j : ℤ) {n k : ℕ} (hk : k < n) :
    copied src dst i j n (j + k) = src (i + k) := by
  rw [copied, if_pos (by omega)]
  congr 1
  omega

theorem copied_outside (src dst : ℤ → β) (i : ℤ) {j a : ℤ} {n : ℕ} (h : a < j ∨ j + n ≤ a) :
    copied src dst i j n a = dst a := by
  rw [copied, if_neg (by omega)]

end Copy
