import Mathlib.Data.List.TakeWhile
import Mathlib.Data.Nat.Notation

/-!
# Strings that end in a terminator

A C string is the part of a buffer before the first terminator, a list of characters.

## Main definitions

* `CString.ofBuffer`: the string in a buffer.
* `CString.snprintf`: a bounded copy.
* `CString.strrchr`: the part of a string from the last occurrence of a character on.
-/

namespace CString

universe u
variable {β : Type u} [DecidableEq β]

/-- The string in a buffer: the characters before the first terminator `nul`. -/
def ofBuffer (nul : β) (buf : List β) : List β := buf.takeWhile (· ≠ nul)

/-- `snprintf(dst, size, "%s", src)`: what `dst` holds, for a `size` that is not 0. -/
def snprintf (size : ℕ) (src : List β) : List β := src.take (size - 1)

/-- `strrchr`: the string from the last occurrence of `c` on, or `NULL`. -/
def strrchr (c : β) : List β → Option (List β)
  | [] => none
  | b :: s =>
      match strrchr c s with
      | some t => some t
      | none => if b = c then some (b :: s) else none

/-- A buffer that holds a string and a terminator. -/
theorem ofBuffer_append {nul : β} {s : List β} (h : nul ∉ s) (rest : List β) :
    ofBuffer nul (s ++ nul :: rest) = s := by
  have hall : ∀ b ∈ s, decide (b ≠ nul) = true := by
    intro b hb
    exact decide_eq_true fun heq => h (heq ▸ hb)
  rw [ofBuffer, List.takeWhile_append_of_pos hall, List.takeWhile_cons_of_neg (by simp),
    List.append_nil]

theorem strrchr_eq_none {c : β} {s : List β} (h : c ∉ s) : strrchr c s = none := by
  induction s with
  | nil => rfl
  | cons b s ih =>
      rw [List.mem_cons, not_or] at h
      rw [strrchr, ih h.2]
      exact if_neg fun heq => h.1 heq.symm

/-- What it finds begins with the character. -/
theorem strrchr_eq_some {c : β} {s t : List β} (h : strrchr c s = some t) :
    ∃ l u, s = l ++ c :: u ∧ t = c :: u := by
  induction s with
  | nil => cases h
  | cons b s ih =>
      rw [strrchr] at h
      cases hs : strrchr c s with
      | some t' =>
          rw [hs] at h
          obtain rfl := Option.some.inj h
          obtain ⟨l, u, rfl, rfl⟩ := ih hs
          exact ⟨b :: l, u, rfl, rfl⟩
      | none =>
          simp only [hs] at h
          split at h
          · next hb =>
              obtain rfl := Option.some.inj h
              exact ⟨[], s, by rw [hb, List.nil_append], by rw [hb]⟩
          · cases h

/-- **The last component** of a path. -/
theorem strrchr_append {c : β} {t : List β} (h : c ∉ t) (s : List β) :
    strrchr c (s ++ c :: t) = some (c :: t) := by
  induction s with
  | nil =>
      rw [List.nil_append, strrchr, strrchr_eq_none h]
      exact if_pos rfl
  | cons b s ih => rw [List.cons_append, strrchr, ih]

end CString
