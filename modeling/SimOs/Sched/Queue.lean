import Mathlib.Data.List.Basic
import Mathlib.Data.List.Perm.Basic
import Mathlib.Data.Nat.Notation

/-!
# The array queues of the scheduler

`queue_t` is an array of `MAX_QUEUE_SIZE` process pointers with a fill count.
Here it is the list of the filled slots, and the fill bound is a field, so an
overfull queue cannot be built.  A process pointer is an element of an arbitrary
type `α`; what `dequeue` reads through it, the field `prio`, is a parameter.

`dequeue` does not take the front: it scans for the largest `prio` and closes the
gap.  `dequeue_eq` says what leaves and what stays.

## Main definitions

* `Queue α`: `queue_t`.
* `enqueue`, `dequeue`: the two operations of `queue.c`.
-/

namespace SimOs

universe u
variable {α : Type u}

/-- `MAX_QUEUE_SIZE` of `queue.h`. -/
def maxQueueSize : ℕ := 10

/-- `struct queue_t`: the filled prefix of the array `proc`. -/
@[ext] structure Queue (α : Type u) where
  /-- `proc[0 .. size - 1]`. -/
  proc : List α
  /-- The array has no further slots. -/
  size_le : proc.length ≤ maxQueueSize

namespace Queue

/-- The field `size`. -/
def size (q : Queue α) : ℕ := q.proc.length

/-- A queue whose `size` is 0. -/
def nil : Queue α := ⟨[], Nat.zero_le _⟩

@[simp] theorem proc_nil : (nil : Queue α).proc = [] := rfl

theorem size_eq_zero {q : Queue α} : q.size = 0 ↔ q.proc = [] := List.length_eq_zero_iff

/-- `enqueue`: a full queue ignores the new process. -/
def enqueue (q : Queue α) (p : α) : Queue α :=
  if h : q.size = maxQueueSize then q
  else ⟨q.proc ++ [p], by
    have := q.size_le
    simp only [size] at h
    simp only [List.length_append, List.length_singleton]
    omega⟩

theorem enqueue_of_full {q : Queue α} (h : q.size = maxQueueSize) (p : α) :
    q.enqueue p = q := dif_pos h

theorem proc_enqueue_of_room {q : Queue α} (h : q.size ≠ maxQueueSize) (p : α) :
    (q.enqueue p).proc = q.proc ++ [p] := by
  rw [enqueue, dif_neg h]

/-- The first loop of `dequeue`: the slots from `i` on are still to be looked at,
`best` at `index` is the highest seen so far. -/
def scanHighest (prio : α → ℕ) : List α → ℕ → α → ℕ → α × ℕ
  | [], _, best, index => (best, index)
  | p :: ps, i, best, index =>
      if prio p > prio best then scanHighest prio ps (i + 1) p i
      else scanHighest prio ps (i + 1) best index

/-- `dequeue`: the first of the processes with the largest `prio`, or `NULL`.  The
second loop shifts the later slots down by one. -/
def dequeue (prio : α → ℕ) (q : Queue α) : Option α × Queue α :=
  match q.proc with
  | [] => (none, q)
  | p :: _ =>
      let r := scanHighest prio q.proc 0 p 0
      (some r.1, ⟨q.proc.eraseIdx r.2,
        Nat.le_trans (List.eraseIdx_sublist q.proc r.2).length_le q.size_le⟩)

/-- Either nothing still to come beats `best`, or the scan ends at the first of the
strictly larger ones. -/
theorem scanHighest_cases (prio : α → ℕ) (l : List α) (i : ℕ) (best : α) (index : ℕ) :
    ((∀ x ∈ l, prio x ≤ prio best) ∧ scanHighest prio l i best index = (best, index)) ∨
    ∃ pre p post, l = pre ++ p :: post ∧
      scanHighest prio l i best index = (p, i + pre.length) ∧
      prio best < prio p ∧ (∀ x ∈ pre, prio x < prio p) ∧ ∀ x ∈ post, prio x ≤ prio p := by
  induction l generalizing i best index with
  | nil => exact Or.inl ⟨by simp, rfl⟩
  | cons a l ih =>
      by_cases ha : prio a > prio best
      · have hstep : scanHighest prio (a :: l) i best index =
            scanHighest prio l (i + 1) a i := by simp only [scanHighest, if_pos ha]
        right
        rcases ih (i + 1) a i with ⟨hle, heq⟩ | ⟨pre, p, post, hl, heq, hlt, hpre, hpost⟩
        · exact ⟨[], a, l, rfl, by rw [hstep, heq]; rfl, ha, by simp, hle⟩
        · refine ⟨a :: pre, p, post, by rw [hl]; rfl, ?_, by omega, ?_, hpost⟩
          · rw [hstep, heq, List.length_cons]
            congr 1
            omega
          · intro x hx
            rcases List.mem_cons.mp hx with rfl | hx
            · exact hlt
            · exact hpre x hx
      · have hstep : scanHighest prio (a :: l) i best index =
            scanHighest prio l (i + 1) best index := by simp only [scanHighest, if_neg ha]
        rcases ih (i + 1) best index with ⟨hle, heq⟩ | ⟨pre, p, post, hl, heq, hlt, hpre, hpost⟩
        · left
          refine ⟨?_, by rw [hstep, heq]⟩
          intro x hx
          rcases List.mem_cons.mp hx with rfl | hx
          · omega
          · exact hle x hx
        · right
          refine ⟨a :: pre, p, post, by rw [hl]; rfl, ?_, hlt, ?_, hpost⟩
          · rw [hstep, heq, List.length_cons]
            congr 1
            omega
          · intro x hx
            rcases List.mem_cons.mp hx with rfl | hx
            · omega
            · exact hpre x hx

@[simp] theorem dequeue_nil (prio : α → ℕ) {q : Queue α} (h : q.size = 0) :
    q.dequeue prio = (none, q) := by
  obtain ⟨l, hl⟩ := q
  obtain rfl : l = [] := size_eq_zero.mp h
  rfl

/-- **What `dequeue` removes**: the first process of the largest `prio`; the others
keep their order. -/
theorem dequeue_eq (prio : α → ℕ) {q : Queue α} (h : q.size ≠ 0) :
    ∃ pre p post, q.proc = pre ++ p :: post ∧ (q.dequeue prio).1 = some p ∧
      (q.dequeue prio).2.proc = pre ++ post ∧
      (∀ x ∈ pre, prio x < prio p) ∧ ∀ x ∈ post, prio x ≤ prio p := by
  obtain ⟨l, hl⟩ := q
  cases l with
  | nil => exact absurd rfl h
  | cons a l =>
      rcases scanHighest_cases prio (a :: l) 0 a 0 with
        ⟨hle, heq⟩ | ⟨pre, p, post, hsplit, heq, -, hpre, hpost⟩
      · refine ⟨[], a, l, rfl, ?_, ?_, by simp, fun x hx => hle x (List.mem_cons_of_mem a hx)⟩
        · simp only [dequeue, heq]
        · simp only [dequeue, heq, List.eraseIdx_cons_zero, List.nil_append]
      · refine ⟨pre, p, post, hsplit, ?_, ?_, hpre, hpost⟩
        · simp only [dequeue, heq]
        · simp only [dequeue, heq, Nat.zero_add]
          rw [hsplit, List.eraseIdx_append_of_length_le (Nat.le_refl _)]
          simp

theorem dequeue_isSome (prio : α → ℕ) {q : Queue α} (h : q.size ≠ 0) :
    ∃ p, (q.dequeue prio).1 = some p := by
  obtain ⟨_, p, _, _, hp, _⟩ := dequeue_eq prio h
  exact ⟨p, hp⟩

/-- What leaves and what stays are together what was there. -/
theorem dequeue_perm {prio : α → ℕ} {q : Queue α} {p : α} (h : (q.dequeue prio).1 = some p) :
    q.proc.Perm (p :: (q.dequeue prio).2.proc) := by
  have hne : q.size ≠ 0 := by
    intro h0
    rw [dequeue_nil prio h0] at h
    exact absurd h (by simp)
  obtain ⟨pre, p', post, hsplit, hp', hrest, -⟩ := dequeue_eq prio hne
  obtain rfl : p' = p := by rw [hp'] at h; exact Option.some.inj h
  rw [hsplit, hrest]
  exact List.perm_middle

/-- `dequeue` shortens a non-empty queue by one. -/
theorem size_dequeue (prio : α → ℕ) {q : Queue α} (h : q.size ≠ 0) :
    (q.dequeue prio).2.size + 1 = q.size := by
  obtain ⟨p, hp⟩ := dequeue_isSome prio h
  have := (dequeue_perm hp).length_eq
  simp only [List.length_cons] at this
  simp only [size, this]

end Queue
end SimOs
