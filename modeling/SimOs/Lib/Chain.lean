import Mathlib.Data.List.Basic
import Mathlib.Data.Nat.Notation

/-!
# Null-terminated chains

A singly linked list is the pointer to its first node: `NULL`, a node, or a pointer
that was never initialised and points to nothing.  Following a chain to its end
needs it to be null-terminated, that is, of the form `ofList l`.

## Main definitions

* `Chain α`: a pointer to a linked list of `α`.
* `Chain.ofList`: the null-terminated chains.
* `Chain.toList`: the nodes up to the end, whatever it is.
-/

universe u

/-- A pointer to a node of a singly linked list. -/
inductive Chain (α : Type u)
  /-- `NULL`. -/
  | null
  /-- A pointer that must not be followed. -/
  | wild
  /-- A node and its `next` field. -/
  | node (a : α) (next : Chain α)
  deriving DecidableEq

namespace Chain

variable {α : Type u}

/-- The null-terminated chain of the elements of a list. -/
def ofList : List α → Chain α
  | [] => null
  | a :: l => node a (ofList l)

/-- The elements of the nodes that can be reached. -/
def toList : Chain α → List α
  | null => []
  | wild => []
  | node a c => a :: c.toList

@[simp] theorem ofList_nil : ofList ([] : List α) = null := rfl
@[simp] theorem ofList_cons (a : α) (l : List α) : ofList (a :: l) = node a (ofList l) := rfl

@[simp] theorem toList_node (a : α) (c : Chain α) : (node a c).toList = a :: c.toList := rfl

@[simp] theorem toList_ofList (l : List α) : (ofList l).toList = l := by
  induction l with
  | nil => rfl
  | cons a l ih => rw [ofList_cons, toList_node, ih]

theorem ofList_injective : Function.Injective (ofList : List α → Chain α) := by
  intro l l' h
  rw [← toList_ofList l, h, toList_ofList]

/-- The nodes of `c`, and then what follows. -/
def append : Chain α → Chain α → Chain α
  | null, d => d
  | wild, d => d
  | node a c, d => node a (append c d)

/-- A list that `NULL` follows ends there. -/
@[simp] theorem append_ofList_null (l : List α) : (ofList l).append null = ofList l := by
  induction l with
  | nil => rfl
  | cons a l ih => rw [ofList_cons, append, ih]

/-- What follows the nodes of a list can take the last of them. -/
theorem append_ofList_concat (l : List α) (a : α) (d : Chain α) :
    (ofList (l ++ [a])).append d = (ofList l).append (node a d) := by
  induction l with
  | nil => rfl
  | cons b l ih => rw [List.cons_append, ofList_cons, ofList_cons, append, append, ih]

/-- The element of node `k`. -/
def get? : Chain α → ℕ → Option α
  | node a _, 0 => some a
  | node _ c, k + 1 => c.get? k
  | _, _ => none

@[simp] theorem get?_ofList (l : List α) (k : ℕ) : (ofList l).get? k = l[k]? := by
  induction l generalizing k with
  | nil => cases k <;> rfl
  | cons a l ih =>
      cases k with
      | zero => rfl
      | succ k => exact ih k

/-- Change the element of node `k`. -/
def modify (f : α → α) : Chain α → ℕ → Chain α
  | node a c, 0 => node (f a) c
  | node a c, k + 1 => node a (c.modify f k)
  | c, _ => c

/-- Whether the pointer is `NULL`. -/
def isNull : Chain α → Bool
  | null => true
  | _ => false

theorem eq_null_of_isNull {c : Chain α} (h : c.isNull) : c = null := by
  cases c with
  | null => rfl
  | wild => cases h
  | node a c => cases h

/-- Unlink the last node. -/
def popLast : Chain α → Option (α × Chain α)
  | node a null => some (a, null)
  | node a c => c.popLast.map fun r => (r.1, node a r.2)
  | _ => none

/-- Unlinking the last node of a null-terminated chain. -/
theorem popLast_ofList (l : List α) (a : α) :
    (ofList (l ++ [a])).popLast = some (a, ofList l) := by
  induction l with
  | nil => rfl
  | cons b l ih =>
      cases l with
      | nil => rfl
      | cons c l => simp only [List.cons_append, ofList_cons, popLast] at ih ⊢; rw [ih]; rfl

/-- Unlinking shortens the chain. -/
theorem length_popLast {c d : Chain α} {a : α} (h : c.popLast = some (a, d)) :
    c.toList.length = d.toList.length + 1 := by
  induction c generalizing d with
  | null => cases h
  | wild => cases h
  | node b c ih =>
      cases c with
      | null =>
          obtain ⟨rfl, rfl⟩ := Prod.mk.inj (Option.some.inj h)
          rfl
      | wild => cases h
      | node b' c =>
          obtain ⟨⟨a', d'⟩, hpop, heq⟩ := Option.map_eq_some_iff.mp h
          obtain ⟨rfl, rfl⟩ := Prod.mk.inj heq
          rw [toList_node, List.length_cons, ih hpop]
          rfl

/-- A chain that is as before when its last element has moved to the front begins with
that element. -/
theorem eq_of_popLast_node {a b : α} {c : Chain α} (h : (node a c).popLast = some (b, c)) :
    b = a := by
  induction c generalizing a with
  | null => exact (Prod.mk.inj (Option.some.inj h)).1.symm
  | wild => cases h
  | node a' c ih =>
      obtain ⟨⟨b', d⟩, hpop, heq⟩ := Option.map_eq_some_iff.mp h
      obtain ⟨rfl, hnode⟩ := Prod.mk.inj heq
      obtain ⟨rfl, rfl⟩ := Chain.node.inj hnode
      exact ih hpop

end Chain
