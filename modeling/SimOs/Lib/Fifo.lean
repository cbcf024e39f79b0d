import Mathlib.Data.List.Basic
import Mathlib.Logic.Function.Basic

/-!
# First in, first out

A family of lists, one for each key, which elements enter at the back and leave at the
front.  However the operations on different keys are interleaved, what has left a list
and what it still holds are together what has entered it, in the same order.

## Main definitions

* `Fifo.Op`, `Fifo.Step`, `Fifo.Run`: the operations, and sequences of them.
* `Fifo.entered`, `Fifo.left`: what a sequence moved in and out under a key.
* `Fifo.Run.history`: the order is kept.
-/

namespace Fifo

universe u v
variable {κ : Type u} {α : Type v} [DecidableEq κ]

/-- What can happen to the lists. -/
inductive Op (κ : Type u) (α : Type v)
  | enter (k : κ) (a : α)
  | leave (k : κ) (a : α)
  | skip

/-- The effect of one operation. -/
inductive Step (f : κ → List α) : Op κ α → (κ → List α) → Prop
  | enter (k : κ) (a : α) : Step f (.enter k a) (Function.update f k (f k ++ [a]))
  | leave (k : κ) (a : α) (rest : List α) (h : f k = a :: rest) :
      Step f (.leave k a) (Function.update f k rest)
  | skip : Step f .skip f

/-- The effect of a sequence of operations. -/
inductive Run (f : κ → List α) : List (Op κ α) → (κ → List α) → Prop
  | nil : Run f [] f
  | concat {g h : κ → List α} {ops : List (Op κ α)} {op : Op κ α} (hrun : Run f ops g)
      (hstep : Step g op h) : Run f (ops ++ [op]) h

/-- What an operation moves in under key `k`. -/
def Op.entered (k : κ) : Op κ α → List α
  | .enter j a => if j = k then [a] else []
  | _ => []

/-- What an operation moves out under key `k`. -/
def Op.left (k : κ) : Op κ α → List α
  | .leave j a => if j = k then [a] else []
  | _ => []

/-- What a sequence of operations moves in under key `k`, in order. -/
def entered (k : κ) (ops : List (Op κ α)) : List α := ops.flatMap (Op.entered k)

/-- What a sequence of operations moves out under key `k`, in order. -/
def left (k : κ) (ops : List (Op κ α)) : List α := ops.flatMap (Op.left k)

/-- One operation moves in at the back and out at the front. -/
theorem Step.balance {f g : κ → List α} {op : Op κ α} (h : Step f op g) (k : κ) :
    f k ++ op.entered k = op.left k ++ g k := by
  cases h with
  | enter j a =>
      by_cases hj : j = k
      · subst hj
        simp [Op.entered, Op.left]
      · simp [Op.entered, Op.left, hj, Ne.symm hj]
  | leave j a rest hf =>
      by_cases hj : j = k
      · subst hj
        simp [Op.entered, Op.left, hf]
      · simp [Op.entered, Op.left, hj, Ne.symm hj]
  | skip => simp [Op.entered, Op.left]

/-- **The order is kept**: what was there and what entered is what left and what is
there. -/
theorem Run.history {f g : κ → List α} {ops : List (Op κ α)} (h : Run f ops g) (k : κ) :
    f k ++ entered k ops = left k ops ++ g k := by
  induction h with
  | nil => simp [entered, left]
  | @concat g g' ops op _ hstep ih =>
      simp only [entered, left, List.flatMap_append, List.flatMap_singleton] at ih ⊢
      rw [← List.append_assoc, ih, List.append_assoc, hstep.balance k, List.append_assoc]

end Fifo
