import SimOs.Lib.Fifo
import SimOs.Lib.Transition
import SimOs.Mm.Libmem

/-!
# The order of the victims

`enlist_pgn_node` puts a page in front of the FIFO list of a process, and
`find_victim_page` walks to the end of the list with two pointers and unlinks the last
node.  So the list, read from its end, is a queue: pages enter at the back and leave at
the front.

The library functions use `findVictimPage`, which unlinks the last node by recursion on
the list.  `findVictimWalk` is the loop of the source, and the two agree.

## Main definitions

* `findVictimWalk`: the walk, `findVictimPage_eq_walk`: what it does.
* `fifoSystem`: all sequences of calls.
* `victims_in_order`: they refine a first-in first-out queue.
-/

namespace SimOs.Libmem

/-! ## The walk -/

/-- The loop of `find_victim_page`: `prev_pg` and `pg` are the positions of two nodes, and
`pgNext` is what `pg->pg_next` points to. -/
def victimLoop : ℕ → ℕ → Chain ℤ → Option (ℕ × ℕ)
  | prevPg, pg, .null => some (prevPg, pg)
  | _, _, .wild => none
  | _, pg, .node _ next => victimLoop pg (pg + 1) next

/-- Set `pg_next` of the node in position `k` to `NULL`. -/
def cutAfter : ℕ → Chain ℤ → Chain ℤ
  | 0, .node pgn _ => .node pgn .null
  | k + 1, .node pgn next => .node pgn (cutAfter k next)
  | _, c => c

/-- `find_victim_page` as the source writes it. -/
def findVictimWalk (mm : Mm) : Option (Ret ℤ × Mm) :=
  match mm.fifoPgn with
  | .null => some (.err, mm)
  | .wild => none
  | .node pgn next =>
      if next.isNull then some (.ok pgn, { mm with fifoPgn := .null })
      else
        (victimLoop 0 0 next).bind fun r =>
          (mm.fifoPgn.get? r.2).map fun pgn =>
            (.ok pgn, { mm with fifoPgn := cutAfter r.1 mm.fifoPgn })

/-- The walk stops with `pg` on the last node and `prev_pg` on the one before. -/
theorem victimLoop_ofList (prevPg pg : ℕ) (a : ℤ) (l : List ℤ) :
    victimLoop prevPg pg (Chain.ofList (a :: l)) = some (pg + l.length, pg + l.length + 1) := by
  induction l generalizing prevPg pg a with
  | nil => rfl
  | cons b l ih =>
      rw [Chain.ofList_cons, victimLoop, ih, List.length_cons]
      congr 2 <;> omega

/-- What is left of a null-terminated list. -/
theorem cutAfter_ofList (k : ℕ) (l : List ℤ) :
    cutAfter k (Chain.ofList l) = Chain.ofList (l.take (k + 1)) := by
  induction l generalizing k with
  | nil => cases k <;> rfl
  | cons a l ih =>
      cases k with
      | zero => rfl
      | succ k => rw [Chain.ofList_cons, cutAfter, ih, List.take_succ_cons, Chain.ofList_cons]

section Walk

variable {mm : Mm}

theorem findVictimWalk_nil (h : mm.fifoPgn = Chain.ofList []) :
    findVictimWalk mm = some (.err, mm) := by
  rw [findVictimWalk, h]
  rfl

/-- **What the walk does**: it unlinks the last node, also if it is the only one. -/
theorem findVictimWalk_concat {pages : List ℤ} {v : ℤ}
    (h : mm.fifoPgn = Chain.ofList (pages ++ [v])) :
    findVictimWalk mm = some (.ok v, { mm with fifoPgn := Chain.ofList pages }) := by
  cases pages with
  | nil =>
      rw [findVictimWalk, h]
      rfl
  | cons a pages =>
      rw [List.cons_append] at h
      have hmore : ¬ (Chain.ofList (pages ++ [v])).isNull := by
        cases pages with
        | nil => exact Bool.false_ne_true
        | cons b pages => exact Bool.false_ne_true
      have hloop : victimLoop 0 0 (Chain.ofList (pages ++ [v])) =
          some (pages.length, pages.length + 1) := by
        cases pages with
        | nil => rfl
        | cons b pages =>
            rw [List.cons_append, victimLoop_ofList]
            simp
      rw [findVictimWalk, h, Chain.ofList_cons]
      simp only [if_neg hmore, hloop, Option.bind_some]
      rw [← Chain.ofList_cons, Chain.get?_ofList, cutAfter_ofList]
      simp

/-- The recursion on the list and the walk agree. -/
theorem findVictimPage_eq_walk {pages : List ℤ} (h : mm.fifoPgn = Chain.ofList pages) :
    findVictimPage mm = findVictimWalk mm := by
  induction pages using List.reverseRecOn with
  | nil => rw [findVictimPage_of_null h, findVictimWalk_nil h]
  | append_singleton pages v _ =>
      have hpop : mm.fifoPgn.popLast = some (v, Chain.ofList pages) := by
        rw [h, Chain.popLast_ofList]
      rw [findVictimPage_of_popLast hpop, findVictimWalk_concat h]

end Walk

/-! ## The queue -/

/-- A call on the FIFO list. -/
inductive FifoCall
  | enlistPgnNode (pgn : ℤ)
  | findVictimPage
  deriving DecidableEq

/-- The effect of a call. -/
def fifoCall (mm : Mm) : FifoCall → Option Mm
  | .enlistPgnNode pgn => some { mm with fifoPgn := enlistPgnNode mm.fifoPgn pgn }
  | .findVictimPage => (findVictimWalk mm).map Prod.snd

/-- All sequences of calls on a null-terminated list. -/
def fifoSystem : Lts Mm FifoCall where
  init mm := ∃ pages, mm.fifoPgn = Chain.ofList pages
  step := fifoCall

/-- What a call does to the queue. -/
def fifoOp (mm : Mm) : FifoCall → Fifo.Op Unit ℤ
  | .enlistPgnNode pgn => .enter () pgn
  | .findVictimPage =>
      match findVictimWalk mm with
      | some (.ok pgn, _) => .leave () pgn
      | _ => .skip

/-- The queue: the list from its end. -/
def queued (mm : Mm) (_ : Unit) : List ℤ := mm.fifoPgn.toList.reverse

theorem queued_eq {mm : Mm} {pages : List ℤ} (h : mm.fifoPgn = Chain.ofList pages) :
    queued mm = fun _ => pages.reverse := by
  ext k : 1
  rw [queued, h, Chain.toList_ofList]

/-- **One call** keeps the list null-terminated, and is a step of the queue. -/
theorem fifoCall_refines {mm : Mm} {pages : List ℤ} (h : mm.fifoPgn = Chain.ofList pages)
    (call : FifoCall) :
    ∃ mm' pages', fifoCall mm call = some mm' ∧ mm'.fifoPgn = Chain.ofList pages' ∧
      Fifo.Step (queued mm) (fifoOp mm call) (queued mm') := by
  cases call with
  | enlistPgnNode pgn =>
      refine ⟨_, pgn :: pages, rfl, by rw [h]; rfl, ?_⟩
      have hback : queued { mm with fifoPgn := enlistPgnNode mm.fifoPgn pgn } =
          Function.update (queued mm) () (queued mm () ++ [pgn]) := by
        ext k : 1
        cases k
        rw [Function.update_self]
        simp [queued, enlistPgnNode]
      rw [hback]
      exact .enter () pgn
  | findVictimPage =>
      induction pages using List.reverseRecOn with
      | nil =>
          have hwalk := findVictimWalk_nil h
          refine ⟨mm, [], by rw [fifoCall, hwalk]; rfl, h, ?_⟩
          simp only [fifoOp, hwalk]
          exact .skip
      | append_singleton pages v _ =>
          have hwalk := findVictimWalk_concat h
          refine ⟨_, pages, by rw [fifoCall, hwalk]; rfl, rfl, ?_⟩
          have hfront : queued mm () = v :: pages.reverse := by
            rw [queued_eq h, List.reverse_append]
            rfl
          have hrest : queued { mm with fifoPgn := Chain.ofList pages } =
              Function.update (queued mm) () pages.reverse := by
            ext k : 1
            cases k
            rw [Function.update_self, queued, Chain.toList_ofList]
          simp only [fifoOp, hwalk, hrest]
          exact .leave () v pages.reverse hfront

/-- A list that is read from its end. -/
theorem findVictimWalk_of_reverse {mm : Mm} {pages newer : List ℤ} {oldest : ℤ}
    (h : mm.fifoPgn = Chain.ofList pages) (hrev : pages.reverse = oldest :: newer) :
    findVictimWalk mm =
      some (.ok oldest, { mm with fifoPgn := Chain.ofList newer.reverse }) := by
  apply findVictimWalk_concat
  rw [h, ← List.reverse_cons, ← hrev, List.reverse_reverse]

/-- `find_victim_page` fails exactly on the empty list. -/
theorem findVictimWalk_err_iff {mm : Mm} {pages : List ℤ} (h : mm.fifoPgn = Chain.ofList pages) :
    (∃ mm', findVictimWalk mm = some (.err, mm')) ↔ pages = [] := by
  cases hrev : pages.reverse with
  | nil =>
      obtain rfl := List.reverse_eq_nil_iff.mp hrev
      exact iff_of_true ⟨mm, findVictimWalk_nil h⟩ rfl
  | cons oldest newer =>
      rw [findVictimWalk_of_reverse h hrev]
      constructor
      · intro herr
        obtain ⟨mm', herr⟩ := herr
        cases herr
      · intro hnil
        rw [hnil] at hrev
        cases hrev

/-- **Victims leave in the order in which their pages were enlisted**: every sequence of calls
is defined, and refines a queue.  What was in the list and what was enlisted is, in order,
what was returned and what is still in the list.  Then `find_victim_page` fails exactly on
the empty list, and otherwise returns the oldest page and leaves the others. -/
theorem victims_in_order {mm : Mm} {pages : List ℤ} (h : mm.fifoPgn = Chain.ofList pages)
    (calls : List FifoCall) :
    ∃ mm' pages', fifoSystem.run mm calls = some mm' ∧ mm'.fifoPgn = Chain.ofList pages' ∧
      Fifo.Run (fun _ => pages.reverse) (fifoSystem.trace fifoOp mm calls)
        (fun _ => pages'.reverse) ∧
      pages.reverse ++ Fifo.entered () (fifoSystem.trace fifoOp mm calls) =
        Fifo.left () (fifoSystem.trace fifoOp mm calls) ++ pages'.reverse ∧
      ((∃ mm'', findVictimWalk mm' = some (.err, mm'')) ↔ pages' = []) ∧
      ∀ oldest newer, pages'.reverse = oldest :: newer → findVictimWalk mm' =
        some (.ok oldest, { mm' with fifoPgn := Chain.ofList newer.reverse }) := by
  have hstart : fifoSystem.init mm := ⟨pages, h⟩
  obtain ⟨mm', hrun, pages', h'⟩ := fifoSystem.exists_run (P := fifoSystem.init)
    (fun mm call hmm => by
      obtain ⟨pages, h⟩ := hmm
      obtain ⟨mm', pages', hcall, h', -⟩ := fifoCall_refines h call
      exact ⟨mm', hcall, pages', h'⟩)
    hstart calls
  have hqueue : Fifo.Run (queued mm) (fifoSystem.trace fifoOp mm calls) (queued mm') := by
    have hhist := fifoSystem.trace_invariant fifoOp
      (P := fun s os => fifoSystem.init s ∧ Fifo.Run (queued mm) os (queued s)) ?_ hrun
      ⟨hstart, .nil⟩
    · exact hhist.2
    · intro s os call t hs hcall
      obtain ⟨⟨pages, hpages⟩, hops⟩ := hs
      obtain ⟨t', pages', hcall', ht', hstep⟩ := fifoCall_refines hpages call
      obtain rfl := Option.some.inj (hcall.symm.trans hcall')
      exact ⟨⟨pages', ht'⟩, hops.concat hstep⟩
  rw [queued_eq h, queued_eq h'] at hqueue
  refine ⟨mm', pages', hrun, h', hqueue, hqueue.history (), findVictimWalk_err_iff h', ?_⟩
  intro oldest newer hrev
  exact findVictimWalk_of_reverse h' hrev

theorem victims_in_order_three :
    ∃ mm', fifoSystem.run { initMm .zeroed with fifoPgn := Chain.ofList [7] }
        [.enlistPgnNode 3, .findVictimPage, .enlistPgnNode 7] = some mm' ∧
      findVictimWalk mm' = some (.ok 3, { mm' with fifoPgn := Chain.ofList [7] }) := by
  obtain ⟨mm', pages', hrun, -, -, hhist, -, hnext⟩ :=
    victims_in_order (show ({ initMm .zeroed with fifoPgn := Chain.ofList [7] } : Mm).fifoPgn =
      Chain.ofList [7] from rfl) [.enlistPgnNode 3, .findVictimPage, .enlistPgnNode 7]
  have hleft : pages'.reverse = [3, 7] := (List.append_cancel_left hhist).symm
  exact ⟨mm', hrun, hnext 3 [7] hleft⟩

end SimOs.Libmem
