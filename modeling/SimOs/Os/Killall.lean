import SimOs.Lib.CString
import SimOs.Lib.Sweep
import SimOs.Mm.Access
import SimOs.Sched.Mlq

/-!
# The system call `killall`

`__sys_killall` reads a name from a memory region of the caller into `proc_name`, looks
through the running list and the ready queues for processes of that name, takes them out,
and releases their memory.  A write past the end of `proc_name` or of `kill_process` is
undefined, and so `none` here.

The loops that take processes out of the running list and of a ready queue differ in one
place: where the array is shifted.  They are one definition with that place as a
parameter.

A process pointer is a number.  Of a process the call uses the path, the code and the
program counter, and the memory management state.

## Main definitions

* `Pcb`, `Kernel`: what the call reads and writes.
* `load`, `readConfigPath`: where the path of a process comes from.
* `readName`, `findVictims`, `freeVictims`: the parts of `__sys_killall`.
* `sysKillall`: `__sys_killall`.
* `findVictims_eq`: what it takes out.
-/

namespace SimOs

universe u

/-- Shift the processes behind place `k` down by one: a loop
`for (j = k; j < size - 1; j++) proc[j] = proc[j + 1];`, and `size--`. -/
def Queue.closeGap {α : Type u} (q : Queue α) (k : ℕ) : Queue α :=
  ⟨q.proc.eraseIdx k, Nat.le_trans (List.eraseIdx_sublist q.proc k).length_le q.size_le⟩

namespace Os

open Libmem

/-- What `killall` uses of `struct pcb_t`, apart from the memory. -/
structure Pcb where
  /-- The string in `path`. -/
  path : List BYTE
  /-- `code->text`, of which `code->size` is the length. -/
  code : List InsT
  pc : ℕ
  deriving DecidableEq

/-- The processes, with the memory they share, and the lists of the scheduler. -/
structure Kernel where
  pcb : ℕ → Pcb
  mem : Shared ℕ
  /-- `caller->running_list`. -/
  runningList : Queue ℕ
  /-- `caller->mlq_ready_queue`. -/
  mlqReadyQueue : ℕ → Queue ℕ

/-! ## The path -/

/-- The character `/`. -/
def slash : BYTE := 47

/-- The string `input/proc/`. -/
def inputProc : List BYTE := [105, 110, 112, 117, 116, 47, 112, 114, 111, 99, 47]

/-- `read_config`: the path of a process that the configuration calls `proc`. -/
def readConfigPath (proc : List BYTE) : List BYTE := inputProc ++ proc

/-- `sizeof(path)` in `load`, where `path` is a pointer. -/
def sizeofPath : ℕ := 8

/-- `load`. -/
def load (path : List BYTE) (code : List InsT) : Pcb where
  path := CString.snprintf (2 * sizeofPath + 1) path
  code := code
  pc := 0

/-! ## The name -/

/-- The size of `proc_name`. -/
def procNameSize : ℕ := 100

/-- The loop that reads the name, at index `i`, with `room` bytes of `proc_name` left.  A
read that fails sets `data` to -1. -/
def readNameLoop (memrg : ℤ) : ℕ → ℕ → List BYTE → Caller → Option (List BYTE × Caller)
  | 0, _, _, _ => none
  | room + 1, i, procName, c =>
      match libread c memrg i with
      | none => none
      | some (.err, c) => some (procName ++ [0], c)
      | some (.ok data, c) =>
          if data = -1 then some (procName ++ [0], c)
          else readNameLoop memrg room (i + 1) (procName ++ [data.setWidth 8]) c

/-- The string in `proc_name` after the loop. -/
def readName (c : Caller) (memrg : ℤ) : Option (List BYTE × Caller) :=
  (readNameLoop memrg procNameSize 0 [] c).map fun r => (CString.ofBuffer 0 r.1, r.2)

/-! ## The victims -/

/-- `proc_get_name && strcmp(proc_get_name + 1, proc_name) == 0`. -/
def Pcb.hasName (p : Pcb) (procName : List BYTE) : Bool :=
  match CString.strrchr slash p.path with
  | none => false
  | some procGetName => procGetName.tail = procName

/-- `kill_process`, of which `index` is the length, and the control blocks. -/
@[ext] structure Kills where
  killProcess : List ℕ
  pcb : ℕ → Pcb

/-- A control block whose program is at its end. -/
def Pcb.atEnd (p : Pcb) : Pcb := { p with pc := p.code.length }

/-- Add a process to `kill_process`, and send its program to the end. -/
def Kills.push (h : Kills) (p : ℕ) : Option Kills :=
  if h.killProcess.length < maxPrio then
    some
      { killProcess := h.killProcess ++ [p]
        pcb := Function.update h.pcb p (h.pcb p).atEnd }
  else none

/-- `n` trips of the loop over an array of processes, from index `i` on. -/
def killLoop (start : ℕ → ℕ) (procName : List BYTE) :
    ℕ → ℕ → Queue ℕ → Kills → Option (Queue ℕ × Kills)
  | 0, _, q, h => some (q, h)
  | n + 1, i, q, h =>
      match q.proc[i]? with
      | none => some (q, h)
      | some p =>
          if (h.pcb p).hasName procName then
            (h.push p).bind fun h => killLoop start procName n i (q.closeGap (start i)) h
          else killLoop start procName n (i + 1) q h

/-- The loop over the running list: `for (int j = i; ...)` closes the gap. -/
def killRunning (procName : List BYTE) (q : Queue ℕ) (h : Kills) : Option (Queue ℕ × Kills) :=
  killLoop (fun i => i) procName q.size 0 q h

/-- The loop over a ready queue: `for (int k = 0; ...)` shifts the whole array. -/
def killReady (procName : List BYTE) (q : Queue ℕ) (h : Kills) : Option (Queue ℕ × Kills) :=
  killLoop (fun _ => 0) procName q.size 0 q h

/-- The loop over the first `n` ready queues. -/
def killReadyQueues (procName : List BYTE) :
    ℕ → (ℕ → Queue ℕ) → Kills → Option ((ℕ → Queue ℕ) × Kills)
  | 0, mlq, h => some (mlq, h)
  | n + 1, mlq, h =>
      (killReadyQueues procName n mlq h).bind fun r =>
        (killReady procName (r.1 n) r.2).map fun s => (Function.update r.1 n s.1, s.2)

/-- Both loops: the state after them, and `kill_process`. -/
def findVictims (k : Kernel) (procName : List BYTE) : Option (Kernel × List ℕ) :=
  (killRunning procName k.runningList ⟨[], k.pcb⟩).bind fun r =>
    (killReadyQueues procName maxPrio k.mlqReadyQueue r.2).map fun s =>
      ({ k with pcb := s.2.pcb, runningList := r.1, mlqReadyQueue := s.1 }, s.2.killProcess)

/-! ## Their memory -/

/-- `__free(p, p->mm->mmap->vm_id, ins.arg_0)`. -/
def freeArg (mem : Shared ℕ) (p : ℕ) (ins : InsT) : Option (Shared ℕ) :=
  ((mem.mm p).mmap.get? 0).bind fun vma =>
    (free (mem.caller p) (CInt.sint 32 vma.vmId) ins.arg0.toInt).map fun r => mem.put p r.2

/-- The loop over the program text of process `p`. -/
def freeAllocs (p : ℕ) : List InsT → Shared ℕ → Option (Shared ℕ)
  | [], mem => some mem
  | ins :: text, mem =>
      if ins.opcode = .alloc then (freeArg mem p ins).bind (freeAllocs p text)
      else freeAllocs p text mem

/-- The loop over `kill_process`. -/
def freeVictims (pcb : ℕ → Pcb) : List ℕ → Shared ℕ → Option (Shared ℕ)
  | [], mem => some mem
  | p :: ps, mem => (freeAllocs p (pcb p).code mem).bind (freeVictims pcb ps)

/-- `__sys_killall`, with the register `a1`.  It returns 0 whatever happens. -/
def sysKillall (k : Kernel) (caller : ℕ) (a1 : BitVec 32) : Option Kernel :=
  (readName (k.mem.caller caller) a1.toNat).bind fun r =>
    (findVictims { k with mem := k.mem.put caller r.2 } r.1).bind fun s =>
      (freeVictims s.1.pcb s.2 s.1.mem).map fun mem => { s.1 with mem := mem }

/-! ## What the loops take out -/

/-- Whether a process has the name. -/
def named (pcb : ℕ → Pcb) (procName : List BYTE) (p : ℕ) : Bool := (pcb p).hasName procName

/-- The processes of that name in a queue. -/
def victimsOf (pcb : ℕ → Pcb) (procName : List BYTE) (q : Queue ℕ) : List ℕ :=
  q.proc.filter (named pcb procName)

/-- A queue after `n` trips from index `i` on that take out what satisfies `p`. -/
def sweptFrom (p : ℕ → Bool) (start : ℕ → ℕ) (n i : ℕ) (q : Queue ℕ) : Queue ℕ :=
  ⟨Sweep.sweep p start n i q.proc, Nat.le_trans (Sweep.length_sweep_le _ _ _ _ _) q.size_le⟩

/-- The queue after its loop. -/
def swept (start : ℕ → ℕ) (pcb : ℕ → Pcb) (procName : List BYTE) (q : Queue ℕ) : Queue ℕ :=
  sweptFrom (named pcb procName) start q.size 0 q

/-- All processes of that name, in the order in which they are found. -/
def victims (k : Kernel) (procName : List BYTE) : List ℕ :=
  victimsOf k.pcb procName k.runningList ++
    (List.range maxPrio).flatMap fun q => victimsOf k.pcb procName (k.mlqReadyQueue q)

/-- The control blocks after the processes of a list were sent to their ends. -/
def ended (pcb : ℕ → Pcb) (ps : List ℕ) (p : ℕ) : Pcb := if p ∈ ps then (pcb p).atEnd else pcb p

/-- Add the processes of a list to `kill_process`. -/
def Kills.pushAll (h : Kills) (ps : List ℕ) : Option Kills := ps.foldlM Kills.push h

@[simp] theorem Pcb.hasName_atEnd (p : Pcb) (procName : List BYTE) :
    p.atEnd.hasName procName = p.hasName procName := rfl

@[simp] theorem Pcb.atEnd_atEnd (p : Pcb) : p.atEnd.atEnd = p.atEnd := rfl

/-- The names are the same after a process was sent to its end. -/
theorem named_update (pcb : ℕ → Pcb) (p : ℕ) (procName : List BYTE) :
    named (Function.update pcb p (pcb p).atEnd) procName = named pcb procName := by
  ext r
  rw [named, named]
  by_cases hr : r = p
  · rw [hr, Function.update_self, Pcb.hasName_atEnd]
  · rw [Function.update_of_ne hr]

theorem Kills.named_push {h h' : Kills} {p : ℕ} (hpush : h.push p = some h')
    (procName : List BYTE) : named h'.pcb procName = named h.pcb procName := by
  rw [push] at hpush
  split at hpush
  · obtain rfl := Option.some.inj hpush
    exact named_update h.pcb p procName
  · cases hpush

section Trips

variable {p : ℕ → Bool} {start : ℕ → ℕ} {n i : ℕ} {q : Queue ℕ} {a : ℕ}

theorem sweptFrom_none (hget : q.proc[i]? = none) : sweptFrom p start (n + 1) i q = q := by
  ext1
  simp only [sweptFrom, Sweep.sweep, hget]

theorem sweptFrom_pos (hget : q.proc[i]? = some a) (hp : p a) :
    sweptFrom p start (n + 1) i q = sweptFrom p start n i (q.closeGap (start i)) := by
  ext1
  simp only [sweptFrom, Sweep.sweep, hget, if_pos hp, Queue.closeGap]

theorem sweptFrom_neg (hget : q.proc[i]? = some a) (hp : ¬ p a) :
    sweptFrom p start (n + 1) i q = sweptFrom p start n (i + 1) q := by
  ext1
  simp only [sweptFrom, Sweep.sweep, hget, if_neg hp]

end Trips

/-- **One loop** adds the processes of the name to `kill_process`, and sweeps the queue. -/
theorem killLoop_eq {start : ℕ → ℕ} (hstart : ∀ i, start i ≤ i) (procName : List BYTE)
    {n i : ℕ} {q : Queue ℕ} (hn : q.size ≤ i + n) (h : Kills) :
    killLoop start procName n i q h =
      (h.pushAll ((q.proc.drop i).filter (named h.pcb procName))).map fun h' =>
        (sweptFrom (named h.pcb procName) start n i q, h') := by
  induction n generalizing i q h with
  | zero =>
      have hnone : q.proc.drop i = [] := List.drop_of_length_le hn
      rw [hnone]
      rfl
  | succ n ih =>
      cases hget : q.proc[i]? with
      | none =>
          have hnone : q.proc.drop i = [] :=
            List.drop_of_length_le (List.getElem?_eq_none_iff.mp hget)
          rw [hnone, sweptFrom_none hget]
          simp only [killLoop, hget]
          rfl
      | some p =>
          obtain ⟨hi, hp⟩ := List.getElem?_eq_some_iff.mp hget
          rw [List.drop_eq_getElem_cons hi, hp]
          by_cases hmatch : named h.pcb procName p
          · rw [List.filter_cons_of_pos hmatch, sweptFrom_pos hget hmatch, Kills.pushAll,
              List.foldlM_cons]
            rw [named] at hmatch
            simp only [killLoop, hget, if_pos hmatch]
            cases hpush : h.push p with
            | none => rfl
            | some h' =>
                have hsize : (q.closeGap (start i)).size ≤ i + n := by
                  have hle : start i < q.proc.length := Nat.lt_of_le_of_lt (hstart i) hi
                  have hlen := List.length_eraseIdx_of_lt hle
                  simp only [Queue.size, Queue.closeGap] at hn hlen ⊢
                  omega
                rw [Option.bind_some, ih hsize h', Kills.named_push hpush]
                simp only [Queue.closeGap, Sweep.drop_eraseIdx (hstart i)]
                rfl
          · rw [List.filter_cons_of_neg hmatch, sweptFrom_neg hget hmatch]
            rw [named] at hmatch
            simp only [killLoop, hget, if_neg hmatch]
            exact ih (by omega) h

theorem killRunning_eq (procName : List BYTE) (q : Queue ℕ) (h : Kills) :
    killRunning procName q h = (h.pushAll (victimsOf h.pcb procName q)).map fun h' =>
      (swept (fun i => i) h.pcb procName q, h') :=
  killLoop_eq (fun _ => Nat.le_refl _) procName (Nat.le_of_eq (Nat.zero_add _).symm) h

theorem killReady_eq (procName : List BYTE) (q : Queue ℕ) (h : Kills) :
    killReady procName q h = (h.pushAll (victimsOf h.pcb procName q)).map fun h' =>
      (swept (fun _ => 0) h.pcb procName q, h') :=
  killLoop_eq Nat.zero_le procName (Nat.le_of_eq (Nat.zero_add _).symm) h

theorem Kills.named_pushAll {h h' : Kills} {ps : List ℕ} (hpush : h.pushAll ps = some h')
    (procName : List BYTE) : named h'.pcb procName = named h.pcb procName := by
  induction ps generalizing h with
  | nil =>
      obtain rfl := Option.some.inj hpush
      rfl
  | cons p ps ih =>
      rw [pushAll, List.foldlM_cons] at hpush
      obtain ⟨h₁, hone, hrest⟩ := Option.bind_eq_some_iff.mp hpush
      rw [ih hrest, named_push hone]

theorem Kills.pushAll_append (h : Kills) (ps qs : List ℕ) :
    h.pushAll (ps ++ qs) = (h.pushAll ps).bind fun h' => h'.pushAll qs :=
  List.foldlM_append

/-- **The loops over the ready queues.** -/
theorem killReadyQueues_eq (procName : List BYTE) (n : ℕ) (mlq : ℕ → Queue ℕ) (h : Kills) :
    killReadyQueues procName n mlq h =
      (h.pushAll ((List.range n).flatMap fun q => victimsOf h.pcb procName (mlq q))).map
        fun h' => (fun q => if q < n then swept (fun _ => 0) h.pcb procName (mlq q) else mlq q,
          h') := by
  induction n with
  | zero => simp [killReadyQueues, Kills.pushAll]
  | succ n ih =>
      rw [killReadyQueues, ih, List.range_succ, List.flatMap_append, List.flatMap_singleton,
        Kills.pushAll_append]
      cases hpush :
          h.pushAll ((List.range n).flatMap fun q => victimsOf h.pcb procName (mlq q)) with
      | none => rfl
      | some h' =>
          have hsame := Kills.named_pushAll hpush procName
          simp only [Option.map_some, Option.bind_some, if_neg (Nat.lt_irrefl n), killReady_eq,
            Option.map_map]
          have hvictims : victimsOf h'.pcb procName (mlq n) = victimsOf h.pcb procName (mlq n) := by
            rw [victimsOf, hsame, victimsOf]
          rw [hvictims]
          congr 1
          funext h''
          simp only [Function.comp_apply, Prod.mk.injEq, and_true]
          ext q : 1
          by_cases hq : q = n
          · subst hq
            simp only [Function.update_self, if_pos (Nat.lt_succ_self q), swept, hsame]
          · have hiff : q < n + 1 ↔ q < n := by omega
            simp only [Function.update_of_ne hq, hiff]

/-- The control blocks after one more process was sent to its end. -/
theorem ended_cons (pcb : ℕ → Pcb) (p : ℕ) (ps : List ℕ) :
    ended (Function.update pcb p (pcb p).atEnd) ps = ended pcb (p :: ps) := by
  ext r : 1
  simp only [ended, List.mem_cons]
  by_cases hr : r = p
  · subst hr
    simp
  · simp [hr]

/-- **`kill_process`** has room for `MAX_PRIO` processes. -/
theorem Kills.pushAll_eq {h : Kills} (hroom : h.killProcess.length ≤ maxPrio) (ps : List ℕ) :
    h.pushAll ps = if h.killProcess.length + ps.length ≤ maxPrio then
      some ⟨h.killProcess ++ ps, ended h.pcb ps⟩ else none := by
  induction ps generalizing h with
  | nil =>
      have hnone : ended h.pcb [] = h.pcb := by
        ext r : 1
        simp [ended]
      rw [List.length_nil, Nat.add_zero, if_pos hroom, List.append_nil, hnone]
      rfl
  | cons p ps ih =>
      rw [pushAll, List.foldlM_cons, push]
      by_cases hlt : h.killProcess.length < maxPrio
      · rw [if_pos hlt]
        have hlen : (h.killProcess ++ [p]).length = h.killProcess.length + 1 := by simp
        have hrest := ih (h := ⟨h.killProcess ++ [p], Function.update h.pcb p (h.pcb p).atEnd⟩)
          (by simp only [hlen]; omega)
        refine hrest.trans ?_
        simp only [hlen, ended_cons, List.append_assoc, List.singleton_append, List.length_cons,
          Nat.add_assoc, Nat.add_comm 1]
      · rw [if_neg hlt, if_neg (by rw [List.length_cons]; omega)]
        rfl

/-- The state after both loops. -/
def withoutVictims (k : Kernel) (procName : List BYTE) : Kernel :=
  { k with
    pcb := ended k.pcb (victims k procName)
    runningList := swept (fun i => i) k.pcb procName k.runningList
    mlqReadyQueue := fun q =>
      if q < maxPrio then swept (fun _ => 0) k.pcb procName (k.mlqReadyQueue q)
      else k.mlqReadyQueue q }

/-- **What the loops do**: they find all processes of the name, if `kill_process` has room for
them. -/
theorem findVictims_eq (k : Kernel) (procName : List BYTE) :
    findVictims k procName = if (victims k procName).length ≤ maxPrio then
      some (withoutVictims k procName, victims k procName) else none := by
  have hall := Kills.pushAll_eq (h := ⟨[], k.pcb⟩) (Nat.zero_le _) (victims k procName)
  rw [victims, Kills.pushAll_append] at hall
  rw [findVictims, killRunning_eq]
  cases hrun : (⟨[], k.pcb⟩ : Kills).pushAll (victimsOf k.pcb procName k.runningList) with
  | none =>
      rw [hrun, Option.bind_none] at hall
      split at hall
      · cases hall
      · next hmany => rw [victims, if_neg (by simpa using hmany)]; rfl
  | some h =>
      have hsame := Kills.named_pushAll hrun procName
      rw [hrun, Option.bind_some] at hall
      simp only [Option.map_some, Option.bind_some, killReadyQueues_eq, Option.map_map]
      have hvictims : ∀ q, victimsOf h.pcb procName (k.mlqReadyQueue q) =
          victimsOf k.pcb procName (k.mlqReadyQueue q) := by
        intro q
        rw [victimsOf, hsame, victimsOf]
      simp only [hvictims, hall, swept, hsame]
      by_cases hroom : (victims k procName).length ≤ maxPrio
      · rw [if_pos hroom, if_pos (by simpa [victims] using hroom)]
        rfl
      · rw [if_neg hroom, if_neg (by simpa [victims] using hroom)]
        rfl

/-- A process that `__sys_killall` selects: it has the name, and is in the running list or in
a ready queue. -/
theorem mem_victims {k : Kernel} {procName : List BYTE} {p : ℕ} :
    p ∈ victims k procName ↔ (k.pcb p).hasName procName ∧
      (p ∈ k.runningList.proc ∨ ∃ q < maxPrio, p ∈ (k.mlqReadyQueue q).proc) := by
  simp only [victims, victimsOf, List.mem_append, List.mem_flatMap, List.mem_range,
    List.mem_filter, named]
  constructor
  · rintro (⟨hmem, hname⟩ | ⟨q, hq, hmem, hname⟩)
    · exact ⟨hname, Or.inl hmem⟩
    · exact ⟨hname, Or.inr ⟨q, hq, hmem⟩⟩
  · rintro ⟨hname, hmem | ⟨q, hq, hmem⟩⟩
    · exact Or.inl ⟨hmem, hname⟩
    · exact Or.inr ⟨q, hq, hmem, hname⟩

/-! ## A small kernel -/

/-- A result of which a test has looked at the first part. -/
theorem eq_some_of_any_fst {α : Type} {β : Type} [DecidableEq α] {o : Option (α × β)} {a : α}
    (h : o.any fun r => r.1 = a) : ∃ b, o = some (a, b) := by
  obtain ⟨⟨a', b⟩, hb, ha⟩ := (Option.any_eq_true _ _).mp h
  obtain rfl : a' = a := of_decide_eq_true ha
  exact ⟨b, hb⟩

/-- The names `a` and `b`. -/
def nameA : List BYTE := [97]
def nameB : List BYTE := [98]

/-- Process 1 is `b`, the others are `a`.  The program of `b` allocates 300 bytes as region
0 and 100 bytes as region 1. -/
def smallPcb (p : ℕ) : Pcb :=
  if p = 1 then
    load (readConfigPath nameB) [⟨.alloc, 300, 0, 0, 0⟩, ⟨.alloc, 100, 1, 0, 0⟩]
  else load (readConfigPath nameA) []

/-- Every process has a region of 100 bytes as region 1.  That of process 0 is on frame 0
of RAM, where `bytes` stands, and bytes -1 after it. -/
def smallMem (bytes : List BYTE) : Shared ℕ where
  mm := (mapAll (fun _ => { initMm .zeroed with
    symrgtbl := fun rgid => if rgid = 1 then ⟨0, 100⟩ else ⟨0, 0⟩ }) [⟨0, 0, 1, [0]⟩]).getD
      fun _ => initMm .zeroed
  dev
    | .mram => ⟨fun a => bytes.getD a.toNat 255, 256, true, 0, .null⟩
    | .activeMswp => ⟨fun _ => 0, 256, true, 0, .null⟩

/-- Ready queue 0 has the processes `ready`, as far as there is room. -/
def smallKernel (bytes : List BYTE) (ready : List ℕ) : Kernel where
  pcb := smallPcb
  mem := smallMem bytes
  runningList := Queue.nil
  mlqReadyQueue q :=
    if q = 0 then ⟨ready.take maxQueueSize, List.length_take_le maxQueueSize ready⟩ else Queue.nil

end Os
end SimOs
