import Mathlib.Data.List.Basic
import Mathlib.Data.Nat.Notation

/-!
# Deleting from an array while scanning it

A loop looks at the elements of an array in turn.  If an element is to go, it shifts the
elements down from some place on, and looks at the same index again.  Where the shift
starts decides what the array loses: at the index itself it loses that element, at the
front it loses the first one.

In either case every element of the original array is looked at once.

## Main definitions

* `Sweep.sweep`: the array after the loop.
* `Sweep.sweep_self`: with the shift from the index, a filter.
* `Sweep.sweep_front`: with the shift from the front, a suffix.
* `Sweep.drop_countP_eq_filter_iff`: when the two agree.
-/

namespace Sweep

universe u
variable {α : Type u} (p : α → Bool)

/-- `n` trips of the loop from index `i` on.  An element that satisfies `p` is deleted by
closing the gap at place `start i`. -/
def sweep (start : ℕ → ℕ) : ℕ → ℕ → List α → List α
  | 0, _, l => l
  | n + 1, i, l =>
      match l[i]? with
      | none => l
      | some a =>
          if p a then sweep start n i (l.eraseIdx (start i)) else sweep start n (i + 1) l

theorem length_sweep_le (start : ℕ → ℕ) (n i : ℕ) (l : List α) :
    (sweep p start n i l).length ≤ l.length := by
  induction n generalizing i l with
  | zero => exact Nat.le_refl _
  | succ n ih =>
      rw [sweep]
      split
      · exact Nat.le_refl _
      · split
        · exact Nat.le_trans (ih _ _) (List.eraseIdx_sublist l _).length_le
        · exact ih _ _

/-- What stands behind index `i` does not depend on where the gap was closed, up to `i`. -/
theorem drop_eraseIdx {k i : ℕ} (hk : k ≤ i) (l : List α) :
    (l.eraseIdx k).drop i = l.drop (i + 1) := by
  induction l generalizing k i with
  | nil => simp
  | cons a l ih =>
      cases k with
      | zero => rw [List.eraseIdx_cons_zero, List.drop_succ_cons]
      | succ k =>
          cases i with
          | zero => exact absurd hk (Nat.not_succ_le_zero k)
          | succ i =>
              rw [List.eraseIdx_cons_succ, List.drop_succ_cons, List.drop_succ_cons]
              exact ih (Nat.le_of_succ_le_succ hk)

/-- **Shifting from the index** deletes what satisfies `p`. -/
theorem sweep_self {n i : ℕ} {l : List α} (h : l.length ≤ i + n) :
    sweep p (fun i => i) n i l = l.take i ++ (l.drop i).filter fun a => !p a := by
  induction n generalizing i l with
  | zero =>
      rw [Nat.add_zero] at h
      rw [sweep, List.take_of_length_le h, List.drop_of_length_le h, List.filter_nil,
        List.append_nil]
  | succ n ih =>
      rw [sweep]
      split
      · next hnone =>
          have hle : l.length ≤ i := List.getElem?_eq_none_iff.mp hnone
          rw [List.take_of_length_le hle, List.drop_of_length_le hle, List.filter_nil,
            List.append_nil]
      · next a hsome =>
          obtain ⟨hi, rfl⟩ := List.getElem?_eq_some_iff.mp hsome
          rw [List.drop_eq_getElem_cons hi]
          split
          · next hp =>
              have hlen : (l.eraseIdx i).length ≤ i + n := by
                rw [List.length_eraseIdx_of_lt hi]
                omega
              have htake : (l.take i).length = i := List.length_take_of_le (Nat.le_of_lt hi)
              rw [ih hlen, List.eraseIdx_eq_take_drop_succ,
                List.filter_cons_of_neg (by simpa using hp), List.take_left' htake,
                List.drop_left' htake]
          · next hp =>
              rw [ih (by omega), List.filter_cons_of_pos (by simpa using hp),
                List.take_succ_eq_append_getElem hi, List.append_assoc, List.singleton_append]

/-- **Shifting from the front** deletes as many elements as satisfy `p`, the first ones. -/
theorem sweep_front {n i : ℕ} {l : List α} (h : l.length ≤ i + n) :
    sweep p (fun _ => 0) n i l = l.drop ((l.drop i).countP p) := by
  induction n generalizing i l with
  | zero =>
      rw [Nat.add_zero] at h
      rw [sweep, List.drop_of_length_le h, List.countP_nil, List.drop_zero]
  | succ n ih =>
      rw [sweep]
      split
      · next hnone =>
          have hle : l.length ≤ i := List.getElem?_eq_none_iff.mp hnone
          rw [List.drop_of_length_le hle, List.countP_nil, List.drop_zero]
      · next a hsome =>
          obtain ⟨hi, rfl⟩ := List.getElem?_eq_some_iff.mp hsome
          rw [List.drop_eq_getElem_cons hi]
          split
          · next hp =>
              -- The rest of the array has moved down to the index.
              have htail : l.eraseIdx 0 = l.drop 1 := by
                rw [List.eraseIdx_zero, List.drop_one]
              have hlen : (l.drop 1).length ≤ i + n := by
                rw [List.length_drop]
                omega
              rw [htail, ih hlen, List.drop_drop, List.drop_drop, List.countP_cons_of_pos hp,
                Nat.add_comm 1 i, Nat.add_comm 1]
          · next hp => rw [ih (by omega), List.countP_cons_of_neg hp]

/-- **The first elements are those that satisfy `p`** exactly if none of these stands behind
one that does not. -/
theorem drop_countP_eq_filter_iff (l : List α) :
    l.drop (l.countP p) = l.filter (fun a => !p a) ↔ l.Pairwise fun a b => p b → p a := by
  induction l with
  | nil => simp
  | cons a l ih =>
      by_cases hp : p a
      · rw [List.countP_cons_of_pos hp, List.drop_succ_cons,
          List.filter_cons_of_neg (by simpa using hp), ih, List.pairwise_cons]
        simp [hp]
      · rw [List.countP_cons_of_neg hp, List.filter_cons_of_pos (by simpa using hp),
          List.pairwise_cons]
        constructor
        · intro heq
          -- If some are shifted out, one that satisfies `p` remains, since `a` is out, too.
          have hnone : l.countP p = 0 := by
            cases hcount : l.countP p with
            | zero => rfl
            | succ m =>
                rw [hcount, List.drop_succ_cons] at heq
                have hrest : (l.drop m).countP p = 0 := by
                  rw [heq, List.countP_cons_of_neg hp]
                  simp
                have hsplit : l.countP p = (l.take m).countP p + (l.drop m).countP p := by
                  rw [← List.countP_append, List.take_append_drop]
                rw [hcount, hrest] at hsplit
                have hle := Nat.le_trans (List.countP_le_length (p := p) (l := l.take m))
                  (List.length_take_le m l)
                omega
          have hno : ∀ b ∈ l, ¬ p b := List.countP_eq_zero.mp hnone
          refine ⟨fun b hb hpb => absurd hpb (hno b hb), ?_⟩
          exact ih.mp (by
            rw [hnone, List.drop_zero, List.filter_eq_self.mpr fun b hb => by simpa using hno b hb])
        · rintro ⟨hhead, -⟩
          have hnone : ∀ b ∈ l, ¬ p b := fun b hb hpb => hp (hhead b hb hpb)
          rw [List.countP_eq_zero.mpr hnone, List.drop_zero,
            List.filter_eq_self.mpr fun b hb => by simpa using hnone b hb]

end Sweep
