import SimOs.Os.KillQueues

/-!
# Deleting from the running list in place

The first loop of `__sys_killall` changes the array that it walks through: a match is
overwritten by shifting the later slots down, the size goes down with it, and the index
goes back so that the next trip looks at the same slot again.

Here the loop is as it stands in the source, on an array with all its slots, with indices
of type `int` and no bound on its trips but the fuel.  It ends after one trip for each
entry, and agrees with `killRunning`, which works on the list of the filled slots.

## Main definitions

* `QueueT`: `struct queue_t` with the slots beyond `size`.
* `shiftLoop`, `killLoopInt`: the two loops.
* `Deleted`: what the loop is for.
* `killLoopInt_deletes`: it does so, on every list.
* `killRunning_slots`: the slots that `killRunning` leaves.
-/

namespace SimOs.Os

open Libmem

/-- `struct queue_t`: all slots of the array `proc`, and `size`. -/
structure QueueT where
  proc : List ℕ
  size : ℤ
  deriving DecidableEq

/-- The filled slots. -/
def QueueT.entries (q : QueueT) : List ℕ := q.proc.take q.size.toNat

/-- `proc[i]`.  A slot outside the array is undefined. -/
def slot (proc : List ℕ) (i : ℤ) : Option ℕ := if 0 ≤ i then proc[i.toNat]? else none

/-- `n` trips of `for (j = i; j < size - 1; j++) proc[j] = proc[j + 1];` from `j` on. -/
def shiftLoop : ℕ → ℤ → List ℕ → Option (List ℕ)
  | 0, _, proc => some proc
  | n + 1, j, proc =>
      (slot proc (j + 1)).bind fun p =>
        if 0 ≤ j ∧ j.toNat < proc.length then shiftLoop n (j + 1) (proc.set j.toNat p) else none

/-- The loop over the running list, at index `i`.  It is out of fuel if it gets to look at
its condition once too often. -/
def killLoopInt (procName : List BYTE) : ℕ → ℤ → QueueT → Kills → Option (QueueT × Kills)
  | 0, _, _, _ => none
  | fuel + 1, i, q, h =>
      if i < q.size then
        (slot q.proc i).bind fun p =>
          if (h.pcb p).hasName procName then
            (h.push p).bind fun h =>
              (shiftLoop (q.size - 1 - i).toNat i q.proc).bind fun proc =>
                -- `i--`, and then `i++`
                killLoopInt procName fuel (i - 1 + 1) ⟨proc, q.size - 1⟩ h
          else killLoopInt procName fuel (i + 1) q h
      else some (q, h)

/-- The queue `q` with the control blocks `pcb` has become `q'`: it has lost exactly its
entries of the name, `kill_process` holds these, and they alone are at the end of their
programs. -/
structure Deleted (procName : List BYTE) (q : QueueT) (pcb : ℕ → Pcb) (q' : QueueT)
    (h' : Kills) : Prop where
  entries : q'.entries = q.entries.filter fun p => !(pcb p).hasName procName
  size : q'.size = q'.entries.length
  killProcess : h'.killProcess = q.entries.filter fun p => (pcb p).hasName procName
  ended : ∀ p ∈ h'.killProcess, h'.pcb p = { pcb p with pc := (pcb p).code.length }
  others : ∀ p, p ∉ h'.killProcess → h'.pcb p = pcb p

/-! ## The shift -/

theorem slot_append (pre rest : List ℕ) (a : ℕ) : slot (pre ++ a :: rest) pre.length = some a := by
  rw [slot, if_pos (Int.natCast_nonneg _), Int.toNat_natCast]
  simp

/-- **The shift** overwrites slot `i` with the entries behind it, and leaves the last slot
as it was. -/
theorem shiftLoop_eq (pre rest junk : List ℕ) (a : ℕ) :
    ∃ b, shiftLoop rest.length pre.length (pre ++ a :: (rest ++ junk)) =
      some (pre ++ rest ++ b :: junk) := by
  induction rest generalizing pre a with
  | nil => exact ⟨a, by simp [shiftLoop]⟩
  | cons c rest ih =>
      obtain ⟨b, hb⟩ := ih (pre ++ [c]) c
      refine ⟨b, ?_⟩
      have hnext : slot (pre ++ a :: (c :: rest ++ junk)) (pre.length + 1) = some c := by
        have hslot := slot_append (pre ++ [a]) (rest ++ junk) c
        simpa using hslot
      have hin : (0 : ℤ) ≤ pre.length ∧
          (pre.length : ℤ).toNat < (pre ++ a :: (c :: rest ++ junk)).length := by
        simp
      have hset : (pre ++ a :: (c :: rest ++ junk)).set (pre.length : ℤ).toNat c =
          pre ++ [c] ++ c :: (rest ++ junk) := by
        simp
      rw [List.length_cons, shiftLoop, hnext, Option.bind_some, if_pos hin, hset]
      simpa using hb

/-! ## The loop -/

/-- The filled slots are the entries `l`. -/
def QueueT.Holds (q : QueueT) (l : List ℕ) : Prop :=
  ∃ junk, q.proc = l ++ junk ∧ q.size = l.length

theorem QueueT.Holds.size_eq {q : QueueT} {l : List ℕ} (h : q.Holds l) : q.size = l.length := by
  obtain ⟨junk, -, hsize⟩ := h
  exact hsize

theorem QueueT.Holds.entries {q : QueueT} {l : List ℕ} (h : q.Holds l) : q.entries = l := by
  obtain ⟨junk, hproc, hsize⟩ := h
  rw [QueueT.entries, hproc, hsize, Int.toNat_natCast, List.take_left]

theorem QueueT.holds_entries {q : QueueT} (h0 : 0 ≤ q.size) (hle : q.size ≤ q.proc.length) :
    q.Holds q.entries := by
  refine ⟨q.proc.drop q.size.toNat, (List.take_append_drop _ _).symm, ?_⟩
  rw [QueueT.entries, List.length_take]
  omega

section

variable {procName : List BYTE} {h h' : Kills}

/-- A trip that finds a match at index `pre.length`. -/
theorem killLoopInt_match (pre rest junk : List ℕ) {a : ℕ} (hname : named h.pcb procName a)
    {h₁ : Kills} (hpush : h.push a = some h₁) :
    ∃ b, ∀ fuel, killLoopInt procName (fuel + 1) pre.length
        ⟨pre ++ (a :: rest) ++ junk, pre.length + (a :: rest).length⟩ h =
      killLoopInt procName fuel pre.length
        ⟨pre ++ rest ++ b :: junk, pre.length + rest.length⟩ h₁ := by
  obtain ⟨b, hshift⟩ := shiftLoop_eq pre rest junk a
  refine ⟨b, fun fuel => ?_⟩
  have hlt : (pre.length : ℤ) < pre.length + (a :: rest).length := by
    rw [List.length_cons]
    omega
  have htrips : ((pre.length : ℤ) + rest.length - pre.length).toNat = rest.length := by
    omega
  have hsize : (pre.length : ℤ) + (a :: rest).length - 1 = pre.length + rest.length := by
    rw [List.length_cons]
    omega
  have hsplit : pre ++ (a :: rest) ++ junk = pre ++ a :: (rest ++ junk) := by simp
  rw [named] at hname
  rw [killLoopInt, if_pos hlt]
  simp only [hsplit, slot_append, Option.bind_some, if_pos hname, hpush, hsize, htrips, hshift,
    Int.sub_add_cancel]

/-- A trip that finds another name there. -/
theorem killLoopInt_other (pre rest junk : List ℕ) {a : ℕ} (hname : ¬ named h.pcb procName a)
    (fuel : ℕ) :
    killLoopInt procName (fuel + 1) pre.length
        ⟨pre ++ (a :: rest) ++ junk, pre.length + (a :: rest).length⟩ h =
      killLoopInt procName fuel (pre ++ [a]).length
        ⟨pre ++ [a] ++ rest ++ junk, (pre ++ [a]).length + rest.length⟩ h := by
  have hlt : (pre.length : ℤ) < pre.length + (a :: rest).length := by
    rw [List.length_cons]
    omega
  have hsplit : pre ++ (a :: rest) ++ junk = pre ++ a :: (rest ++ junk) := by simp
  have hsplit' : pre ++ [a] ++ rest ++ junk = pre ++ a :: (rest ++ junk) := by simp
  have hsize : (pre.length : ℤ) + (a :: rest).length = (pre ++ [a]).length + rest.length := by
    simp only [List.length_cons, List.length_append, List.length_nil]
    omega
  rw [named] at hname
  rw [killLoopInt, if_pos hlt]
  simp only [hsplit, hsplit', slot_append, Option.bind_some, if_neg hname, hsize]
  simp

/-- **The invariant of the loop**: the slots before the index are what is to stay of the
entries seen so far, the entries `rest` are still to be seen, and `junk` is beyond the
size. -/
theorem killLoopInt_eq (pre rest junk : List ℕ)
    (hpush : h.pushAll (rest.filter (named h.pcb procName)) = some h') :
    ∃ q' : QueueT, q'.Holds (pre ++ rest.filter fun p => !named h.pcb procName p) ∧
      ∀ fuel, rest.length < fuel →
        killLoopInt procName fuel pre.length
          ⟨pre ++ rest ++ junk, pre.length + rest.length⟩ h = some (q', h') := by
  induction rest generalizing pre junk h with
  | nil =>
      obtain rfl := Option.some.inj hpush
      refine ⟨⟨pre ++ junk, pre.length⟩, ⟨junk, by simp, by simp⟩, ?_⟩
      intro fuel hfuel
      cases fuel with
      | zero => cases hfuel
      | succ fuel => simp [killLoopInt]
  | cons a rest ih =>
      by_cases hname : named h.pcb procName a
      · rw [List.filter_cons_of_pos hname, Kills.pushAll, List.foldlM_cons] at hpush
        obtain ⟨h₁, hone, hrest⟩ := Option.bind_eq_some_iff.mp hpush
        have hsame := Kills.named_push hone procName
        rw [← hsame] at hrest
        -- the same index again, with one entry less
        obtain ⟨b, hstep⟩ := killLoopInt_match pre rest junk hname hone
        obtain ⟨q', hholds, hrun⟩ := ih pre (b :: junk) hrest
        refine ⟨q', ?_, ?_⟩
        · rwa [List.filter_cons_of_neg (by simpa using hname), ← hsame]
        · intro fuel hfuel
          cases fuel with
          | zero => cases hfuel
          | succ fuel => rw [hstep, hrun fuel (Nat.lt_of_succ_lt_succ hfuel)]
      · rw [List.filter_cons_of_neg hname] at hpush
        obtain ⟨q', hholds, hrun⟩ := ih (pre ++ [a]) junk hpush
        refine ⟨q', ?_, ?_⟩
        · rw [List.filter_cons_of_pos (by simpa using hname)]
          simpa using hholds
        · intro fuel hfuel
          cases fuel with
          | zero => cases hfuel
          | succ fuel =>
              rw [killLoopInt_other pre rest junk hname,
                hrun fuel (Nat.lt_of_succ_lt_succ hfuel)]

/-- From index 0, on a whole list. -/
theorem killLoopInt_holds {q : QueueT} {l : List ℕ} (hq : q.Holds l)
    (hpush : h.pushAll (l.filter (named h.pcb procName)) = some h') :
    ∃ q' : QueueT, q'.Holds (l.filter fun p => !named h.pcb procName p) ∧
      ∀ fuel, l.length < fuel → killLoopInt procName fuel 0 q h = some (q', h') := by
  obtain ⟨junk, hproc, hsize⟩ := hq
  obtain ⟨q', hholds, hrun⟩ := killLoopInt_eq [] l junk hpush
  refine ⟨q', by simpa using hholds, ?_⟩
  intro fuel hfuel
  have hq : q = ⟨[] ++ l ++ junk, (([] : List ℕ).length : ℤ) + l.length⟩ := by
    cases q
    simp_all
  rw [hq]
  exact hrun fuel hfuel

end

/-- **The slots behind `killRunning`**: on an array whose filled slots are the list, the loop
leaves the list that `killRunning` leaves. -/
theorem killRunning_slots {procName : List BYTE} {q q' : Queue ℕ} {h h' : Kills}
    (hrun : killRunning procName q h = some (q', h')) {slots : QueueT}
    (hslots : slots.Holds q.proc) :
    ∃ slots' : QueueT, slots'.Holds q'.proc ∧
      ∀ fuel, q.size < fuel → killLoopInt procName fuel 0 slots h = some (slots', h') := by
  rw [killRunning_eq] at hrun
  obtain ⟨h₁, hpush, heq⟩ := Option.map_eq_some_iff.mp hrun
  obtain ⟨rfl, rfl⟩ := Prod.mk.inj heq
  rw [proc_swept_self]
  exact killLoopInt_holds hslots hpush

/-- **The first loop of `__sys_killall` is exact**: on every list that the array holds, with
no more matches than `kill_process` has room for, it ends, after at most one trip for each
entry, and has deleted exactly the matches. -/
theorem killLoopInt_deletes (procName : List BYTE) (q : QueueT) (pcb : ℕ → Pcb)
    (h0 : 0 ≤ q.size) (hle : q.size ≤ q.proc.length)
    (hroom : (q.entries.countP fun p => (pcb p).hasName procName) ≤ maxPrio) :
    ∃ q' h', Deleted procName q pcb q' h' ∧
      ∀ fuel : ℕ, q.size < fuel → killLoopInt procName fuel 0 q ⟨[], pcb⟩ = some (q', h') := by
  have hfits : ([] : List ℕ).length + (q.entries.filter (named pcb procName)).length ≤ maxPrio := by
    rw [List.length_nil, Nat.zero_add, ← List.countP_eq_length_filter]
    exact hroom
  have hall := Kills.pushAll_eq (h := ⟨[], pcb⟩) (Nat.zero_le _)
    (q.entries.filter (named pcb procName))
  rw [if_pos hfits] at hall
  have hq := QueueT.holds_entries h0 hle
  obtain ⟨q', hholds, hrun⟩ := killLoopInt_holds hq hall
  refine ⟨q', ⟨q.entries.filter (named pcb procName),
    ended pcb (q.entries.filter (named pcb procName))⟩, ⟨hholds.entries, ?_, rfl, ?_, ?_⟩, ?_⟩
  · rw [hholds.entries]
    exact hholds.size_eq
  · intro p hp
    exact if_pos hp
  · intro p hp
    exact if_neg hp
  · intro fuel hfuel
    rw [hq.size_eq] at hfuel
    exact hrun fuel (Int.ofNat_lt.mp hfuel)

/-- Three victims, two of them next to each other and one in the last place. -/
theorem killLoopInt_deletes_small :
    ∃ q' h', Deleted nameB ⟨[1, 1, 2, 1, 7], 4⟩ smallPcb q' h' ∧
      ∀ fuel : ℕ, (4 : ℤ) < fuel →
        killLoopInt nameB fuel 0 ⟨[1, 1, 2, 1, 7], 4⟩ ⟨[], smallPcb⟩ = some (q', h') :=
  killLoopInt_deletes nameB ⟨[1, 1, 2, 1, 7], 4⟩ smallPcb (by decide) (by decide)
    (by decide +kernel)

end SimOs.Os
