import SimOs.Mm.Reuse
import SimOs.Os.KillName

/-!
# The memory of the victims

The regions of a victim are looked up in its program: for each ALLOC, `__sys_killall`
passes the first operand to `__free`.  When the ALLOC ran, the first operand was the size,
and the second the region id.  So a region is released only if its id is also the size of
some ALLOC.

## Main definitions

* `createdIds`, `freedIds`: the second and the first operands.
* `Freed`: the regions of a process after some ids were freed.
* `sysKillall_freed`: what the call does to the regions of all processes.
* `Released`, `released_iff`: when the memory is released.
-/

namespace SimOs

namespace Libmem

/-! ## The regions of one process -/

/-- The area, its free list and the symbol table are the same. -/
structure SameRegions (mm mm' : Mm) : Prop where
  mmap : mm'.mmap = mm.mmap
  symrgtbl : mm'.symrgtbl = mm.symrgtbl

theorem SameRegions.refl (mm : Mm) : SameRegions mm mm := ⟨rfl, rfl⟩

theorem SameRegions.trans {mm₁ mm₂ mm₃ : Mm} (h : SameRegions mm₁ mm₂)
    (h' : SameRegions mm₂ mm₃) : SameRegions mm₁ mm₃ :=
  ⟨h'.mmap.trans h.mmap, h'.symrgtbl.trans h.symrgtbl⟩

theorem SameRegions.freeRegions_eq {mm mm' : Mm} (h : SameRegions mm mm') :
    freeRegions mm' = freeRegions mm := by
  rw [freeRegions, h.mmap, freeRegions]

theorem findVictimPage_sameRegions {mm mm' : Mm} {r : Ret ℤ}
    (h : findVictimPage mm = some (r, mm')) : SameRegions mm mm' := by
  rw [findVictimPage] at h
  split at h
  · obtain ⟨-, rfl⟩ := Prod.mk.inj (Option.some.inj h)
    exact .refl mm
  · obtain ⟨v, -, heq⟩ := Option.map_eq_some_iff.mp h
    obtain ⟨-, rfl⟩ := Prod.mk.inj heq
    exact ⟨rfl, rfl⟩

theorem exchange_sameRegions {c c' : Caller} {pgn vicpgn vicfpn swpfpn : ℤ} {pte pte' : BitVec 32}
    (h : exchange c pgn pte vicpgn vicfpn swpfpn = some (pte', c')) :
    SameRegions c.mm c'.mm := by
  simp only [exchange, Option.bind_eq_some_iff, Option.map_eq_some_iff] at h
  obtain ⟨dev₁, -, dev₂, -, heq⟩ := h
  obtain ⟨-, rfl⟩ := Prod.mk.inj heq
  exact ⟨rfl, rfl⟩

theorem pageFault_sameRegions {c : Caller} {pgn : ℤ} {pte : BitVec 32}
    {r : Ret (BitVec 32) × Caller} (h : pageFault c pgn pte = some r) :
    SameRegions c.mm r.2.mm := by
  rw [pageFault] at h
  split at h
  · cases h
  · next mm hvic =>
      obtain rfl := Option.some.inj h
      exact findVictimPage_sameRegions hvic
  · next vicpgn mm hvic =>
      have hmm := findVictimPage_sameRegions hvic
      by_cases hvictim : IsPage vicpgn ∧ PagePresent (mm.pgd vicpgn.toNat)
      · simp only [Caller.mm_setMm, hvictim.1, hvictim.2, not_true_eq_false, if_false] at h
        split at h
        · cases h
        · obtain rfl := Option.some.inj h
          exact hmm
        · obtain ⟨⟨pte', c'⟩, hex, rfl⟩ := Option.map_eq_some_iff.mp h
          exact hmm.trans (exchange_sameRegions hex)
      · rcases not_and_or.mp hvictim with hno | hno
        · simp only [hno, not_false_eq_true, if_true] at h
          obtain rfl := Option.some.inj h
          exact hmm
        · simp only [Caller.mm_setMm, hno, not_false_eq_true, if_true, ite_self] at h
          obtain rfl := Option.some.inj h
          exact hmm

theorem pgGetpage_sameRegions {c : Caller} {pgn : ℤ} {r : Ret ℤ × Caller}
    (h : pgGetpage c pgn = some r) : SameRegions c.mm r.2.mm := by
  by_cases hpage : IsPage pgn
  · by_cases hpresent : PagePresent (c.mm.pgd pgn.toNat)
    · rw [pgGetpage_of_present hpage hpresent] at h
      obtain rfl := Option.some.inj h
      exact .refl c.mm
    · rw [pgGetpage_of_absent hpage hpresent] at h
      obtain ⟨r', hfault, rfl⟩ := Option.map_eq_some_iff.mp h
      exact pageFault_sameRegions hfault
  · rw [pgGetpage_of_not_isPage hpage] at h
    obtain rfl := Option.some.inj h
    exact .refl c.mm

theorem pgGetval_sameRegions {c : Caller} {addr : ℤ} {r : Ret BYTE × Caller}
    (h : pgGetval c addr = some r) : SameRegions c.mm r.2.mm := by
  rw [pgGetval] at h
  split at h
  · cases h
  · next c₁ hpage =>
      obtain rfl := Option.some.inj h
      exact pgGetpage_sameRegions hpage
  · next fpn c₁ hpage =>
      obtain ⟨r', -, rfl⟩ := Option.map_eq_some_iff.mp h
      exact pgGetpage_sameRegions hpage

/-- **A read** leaves the regions alone, whatever pages it moves. -/
theorem libread_sameRegions {c : Caller} {source offset : ℤ} {r : Ret (BitVec 32) × Caller}
    (h : libread c source offset = some r) : SameRegions c.mm r.2.mm := by
  have hread : ∀ {r' : Ret BYTE × Caller},
      read c 0 (CInt.sint 32 source) (CInt.sint 32 offset) = some r' →
        SameRegions c.mm r'.2.mm := by
    intro r' hr'
    obtain ⟨addr, -, hr'⟩ := Option.bind_eq_some_iff.mp hr'
    cases addr with
    | none =>
        obtain rfl := Option.some.inj hr'
        exact .refl c.mm
    | some addr => exact pgGetval_sameRegions hr'
  unfold libread at h
  split at h
  · cases h
  · next c₁ hc₁ =>
      obtain rfl := Option.some.inj h
      exact hread hc₁
  · next data c₁ hc₁ =>
      obtain ⟨u, -, rfl⟩ := Option.map_eq_some_iff.mp h
      exact hread hc₁

/-- A region of the symbol table that is not empty. -/
def Live (mm : Mm) (rgid : ℤ) : Prop :=
  IsSymbol rgid ∧ (mm.symrgtbl rgid).rgStart < (mm.symrgtbl rgid).rgEnd

instance (mm : Mm) (rgid : ℤ) : Decidable (Live mm rgid) := inferInstanceAs (Decidable (_ ∧ _))

theorem live_congr {mm mm' : Mm} {rgid : ℤ} (h : mm'.symrgtbl rgid = mm.symrgtbl rgid) :
    Live mm' rgid ↔ Live mm rgid := by
  rw [Live, Live, h]

theorem not_live_of_zero {mm : Mm} {rgid : ℤ} (h : mm.symrgtbl rgid = ⟨0, 0⟩) :
    ¬ Live mm rgid := by
  rintro ⟨-, hlt⟩
  rw [h] at hlt
  exact absurd hlt (lt_irrefl _)

/-- The live regions among `ids` have moved to the free list, and nothing else has changed
in the symbol table. -/
structure Freed (mm mm' : Mm) (ids : List ℤ) : Prop where
  area : (∃ vma, Area mm vma) → ∃ vma, Area mm' vma
  free : ∀ rg ∈ freeRegions mm, rg ∈ freeRegions mm'
  cleared : ∀ rgid ∈ ids, Live mm rgid →
    mm'.symrgtbl rgid = ⟨0, 0⟩ ∧ mm.symrgtbl rgid ∈ freeRegions mm'
  kept : ∀ rgid, ¬ (rgid ∈ ids ∧ Live mm rgid) → mm'.symrgtbl rgid = mm.symrgtbl rgid

namespace Freed

variable {mm mm₁ mm₂ mm₃ : Mm} {ids ids₁ ids₂ : List ℤ}

theorem of_sameRegions (h : SameRegions mm₁ mm₂) : Freed mm₁ mm₂ [] where
  area := by
    rintro ⟨vma, ha⟩
    exact ⟨vma, h.mmap.trans ha.mmap, ha.vmId⟩
  free := by
    intro rg hrg
    rwa [h.freeRegions_eq]
  cleared := by
    intro rgid hrgid
    cases hrgid
  kept := by
    intro rgid _
    rw [h.symrgtbl]

/-- The ids matter only as a set. -/
theorem congr (h : Freed mm₁ mm₂ ids₁) (hids : ∀ rgid, rgid ∈ ids₁ ↔ rgid ∈ ids₂) :
    Freed mm₁ mm₂ ids₂ where
  area := h.area
  free := h.free
  cleared := fun rgid hrgid => h.cleared rgid ((hids rgid).mpr hrgid)
  kept := fun rgid hno => h.kept rgid (by rwa [hids rgid])

/-- **Freeing in two steps.** -/
theorem trans (h : Freed mm₁ mm₂ ids₁) (h' : Freed mm₂ mm₃ ids₂) :
    Freed mm₁ mm₃ (ids₁ ++ ids₂) where
  area := fun ha => h'.area (h.area ha)
  free := fun rg hrg => h'.free rg (h.free rg hrg)
  cleared := by
    intro rgid hrgid hlive
    by_cases hfirst : rgid ∈ ids₁
    · obtain ⟨hzero, hmoved⟩ := h.cleared rgid hfirst hlive
      have hkept := h'.kept rgid fun hno => not_live_of_zero hzero hno.2
      exact ⟨hkept.trans hzero, h'.free _ hmoved⟩
    · have hsame := h.kept rgid fun hno => hfirst hno.1
      have hsecond := (List.mem_append.mp hrgid).resolve_left hfirst
      rw [← hsame]
      exact h'.cleared rgid hsecond ((live_congr hsame).mpr hlive)
  kept := by
    intro rgid hno
    have hsame := h.kept rgid fun hno₁ => hno ⟨List.mem_append_left _ hno₁.1, hno₁.2⟩
    refine (h'.kept rgid fun hno₂ => hno ⟨List.mem_append_right _ hno₂.1, ?_⟩).trans hsame
    exact (live_congr hsame).mp hno₂.2

/-- **A call of `__free`.** -/
theorem of_freeCase {c : Caller} {vma : VmArea} {rgid : ℤ} {r : Ret Unit × Caller}
    (ha : Area c.mm vma) (h : FreeCase c vma rgid r) : Freed c.mm r.2.mm [rgid] := by
  cases h with
  | empty hno =>
      have hdead : ¬ Live c.mm rgid := by
        rintro ⟨hid, hlt⟩
        cases hno with
        | inl hout => exact hout hid
        | inr hge => exact absurd hlt (not_lt.mpr hge)
      constructor
      · exact id
      · intro rg hrg
        exact hrg
      · intro rgid' hmem hlive
        rw [List.mem_singleton.mp hmem] at hlive
        exact absurd hlive hdead
      · intro rgid' _
        rfl
  | moved hid hlt =>
      have ha' : Area (c.setMm { c.mm with
          mmap := .node (withFree vma (c.mm.symrgtbl rgid)) .null
          symrgtbl := Function.update c.mm.symrgtbl rgid ⟨0, 0⟩ }).mm
          (withFree vma (c.mm.symrgtbl rgid)) := ⟨rfl, ha.vmId⟩
      have hfree := ha'.freeRegions_eq
      constructor
      · intro _
        exact ⟨_, ha'⟩
      · intro rg hrg
        rw [ha.freeRegions_eq] at hrg
        rw [hfree]
        exact List.mem_cons_of_mem _ hrg
      · intro rgid' hmem _
        rw [List.mem_singleton.mp hmem, hfree]
        exact ⟨Function.update_self rgid _ _, List.mem_cons_self⟩
      · intro rgid' hno
        refine Function.update_of_ne ?_ _ _
        intro heq
        rw [heq] at hno
        exact hno ⟨List.mem_singleton_self rgid, hid, hlt⟩

end Freed

end Libmem

namespace Os

open Libmem

/-! ## The loops -/

/-- An operand of every ALLOC of a program, as an `int`. -/
def allocArgs (arg : InsT → BitVec 32) (code : List InsT) : List ℤ :=
  (code.filter fun ins => ins.opcode = .alloc).map fun ins => (arg ins).toInt

/-- The ids that the program creates regions with. -/
def createdIds (code : List InsT) : List ℤ := allocArgs InsT.arg1 code

/-- The ids that `__sys_killall` passes to `__free`. -/
def freedIds (code : List InsT) : List ℤ := allocArgs InsT.arg0 code

/-- **One call of `__free`** for process `p`. -/
theorem freeArg_freed {mem : Shared ℕ} {p : ℕ} (harea : ∃ vma, Area (mem.mm p) vma) (ins : InsT) :
    ∃ mem', freeArg mem p ins = some mem' ∧ Freed (mem.mm p) (mem'.mm p) [ins.arg0.toInt] ∧
      ∀ q, q ≠ p → mem'.mm q = mem.mm q := by
  obtain ⟨vma, ha⟩ := harea
  have ha' : Area (mem.caller p).mm vma := ha
  have hid : CInt.sint 32 vma.vmId = 0 := by
    rw [ha.vmId]
    decide
  obtain ⟨r, hr, hcase⟩ := free_cases ins.arg0.toInt ha'
  refine ⟨mem.put p r.2, ?_, ?_, ?_⟩
  · rw [freeArg, ha.get?, Option.bind_some, hid, hr, Option.map_some]
  · simp only [Shared.put, Function.update_self]
    exact Freed.of_freeCase ha' hcase
  · intro q hq
    exact Function.update_of_ne hq _ _

/-- **The loop over a program.** -/
theorem freeAllocs_freed {p : ℕ} (text : List InsT) {mem : Shared ℕ}
    (harea : ∃ vma, Area (mem.mm p) vma) :
    ∃ mem', freeAllocs p text mem = some mem' ∧
      Freed (mem.mm p) (mem'.mm p) (freedIds text) ∧ ∀ q, q ≠ p → mem'.mm q = mem.mm q := by
  induction text generalizing mem with
  | nil => exact ⟨mem, rfl, .of_sameRegions (.refl _), fun _ _ => rfl⟩
  | cons ins text ih =>
      by_cases halloc : ins.opcode = .alloc
      · obtain ⟨mem₁, hone, hfreed, hother⟩ := freeArg_freed harea ins
        obtain ⟨mem', hrest, hfreed', hother'⟩ := ih (hfreed.area harea)
        refine ⟨mem', ?_, ?_, ?_⟩
        · rw [freeAllocs, if_pos halloc, hone, Option.bind_some, hrest]
        · have hids : freedIds (ins :: text) = [ins.arg0.toInt] ++ freedIds text := by
            simp [freedIds, allocArgs, halloc]
          rw [hids]
          exact hfreed.trans hfreed'
        · intro q hq
          rw [hother' q hq, hother q hq]
      · obtain ⟨mem', hrest, hfreed', hother'⟩ := ih harea
        refine ⟨mem', ?_, ?_, hother'⟩
        · rw [freeAllocs, if_neg halloc, hrest]
        · have hids : freedIds (ins :: text) = freedIds text := by
            simp [freedIds, allocArgs, halloc]
          rw [hids]
          exact hfreed'

/-- **The loop over `kill_process`**, where a process may stand more than once. -/
theorem freeVictims_freed (pcb : ℕ → Pcb) (ps : List ℕ) {mem : Shared ℕ}
    (harea : ∀ p ∈ ps, ∃ vma, Area (mem.mm p) vma) :
    ∃ mem', freeVictims pcb ps mem = some mem' ∧
      (∀ p ∈ ps, Freed (mem.mm p) (mem'.mm p) (freedIds (pcb p).code)) ∧
      ∀ q, q ∉ ps → mem'.mm q = mem.mm q := by
  induction ps generalizing mem with
  | nil => exact ⟨mem, rfl, fun p hp => (by cases hp), fun _ _ => rfl⟩
  | cons p ps ih =>
      obtain ⟨mem₁, hone, hfreed, hother⟩ :=
        freeAllocs_freed (pcb p).code (harea p List.mem_cons_self)
      have harea₁ : ∀ q ∈ ps, ∃ vma, Area (mem₁.mm q) vma := by
        intro q hq
        by_cases hqp : q = p
        · rw [hqp]
          exact hfreed.area (harea p List.mem_cons_self)
        · rw [hother q hqp]
          exact harea q (List.mem_cons_of_mem _ hq)
      obtain ⟨mem', hrest, hfreed', hother'⟩ := ih harea₁
      refine ⟨mem', ?_, ?_, ?_⟩
      · rw [freeVictims, hone, Option.bind_some, hrest]
      · intro q hq
        by_cases hqp : q = p
        · subst hqp
          by_cases hagain : q ∈ ps
          · -- What the first time has freed is not live the second time.
            refine (hfreed.trans (hfreed' q hagain)).congr ?_
            simp
          · rw [hother' q hagain]
            exact hfreed
        · have hmem := List.mem_of_ne_of_mem hqp hq
          rw [← hother q hqp]
          exact hfreed' q hmem
      · intro q hq
        rw [List.mem_cons, not_or] at hq
        rw [hother' q hq.2, hother q hq.1]

theorem NameRead.sameRegions {memrg : ℤ} {i : ℕ} {c c' : Caller} {name : List BYTE}
    (h : NameRead memrg i c name c') : SameRegions c.mm c'.mm := by
  induction h with
  | failed hread => exact libread_sameRegions hread
  | stop hread => exact libread_sameRegions hread
  | byte hread _ _ ih => exact (libread_sameRegions hread).trans ih

@[simp] theorem code_ended (pcb : ℕ → Pcb) (ps : List ℕ) (p : ℕ) :
    (ended pcb ps p).code = (pcb p).code := by
  rw [ended]
  split
  · rfl
  · rfl

/-! ## The call -/

section

variable {k : Kernel} {caller : ℕ} {a1 : BitVec 32} {procName : List BYTE} {c : Caller}

/-- **What the call does to the regions**: those of the victims are freed as far as their
ids are first operands, and those of the others stay. -/
theorem sysKillall_freed (hname : readName (k.mem.caller caller) a1.toNat = some (procName, c))
    (hroom : (victims k procName).length ≤ maxPrio)
    (harea : ∀ p ∈ victims k procName, ∃ vma, Area (k.mem.mm p) vma) :
    ∃ k', sysKillall k caller a1 = some k' ∧
      (∀ p ∈ victims k procName,
        Freed (k.mem.mm p) (k'.mem.mm p) (freedIds (k.pcb p).code)) ∧
      ∀ p, p ∉ victims k procName → SameRegions (k.mem.mm p) (k'.mem.mm p) := by
  obtain ⟨name, hread, -, -⟩ := readName_eq_some.mp hname
  have hput : ∀ p, SameRegions (k.mem.mm p) ((k.mem.put caller c).mm p) := by
    intro p
    by_cases hp : p = caller
    · simp only [hp, Shared.put, Function.update_self]
      exact hread.sameRegions
    · simp only [Shared.put, Function.update_of_ne hp]
      exact .refl _
  have harea' : ∀ p ∈ victims k procName, ∃ vma, Area ((k.mem.put caller c).mm p) vma :=
    fun p hp => (Freed.of_sameRegions (hput p)).area (harea p hp)
  obtain ⟨mem, hmem, hfreed, hother⟩ :=
    freeVictims_freed (ended k.pcb (victims k procName)) (victims k procName) harea'
  have hvictims := findVictims_eq { k with mem := k.mem.put caller c } procName
  refine ⟨{ withoutVictims k procName with mem := mem }, ?_, ?_, ?_⟩
  · have hfind : findVictims { k with mem := k.mem.put caller c } procName =
        some ({ withoutVictims k procName with mem := k.mem.put caller c },
          victims k procName) := hvictims.trans (if_pos hroom)
    have hfree : freeVictims (withoutVictims k procName).pcb (victims k procName)
        (k.mem.put caller c) = some mem := hmem
    simp only [sysKillall, hname, Option.bind_some, hfind, hfree, Option.map_some]
  · intro p hp
    have hall := (Freed.of_sameRegions (hput p)).trans (hfreed p hp)
    rwa [List.nil_append, code_ended] at hall
  · intro p hp
    rw [hother p hp]
    exact hput p

/-- The victims have no live region left that an ALLOC of theirs created, and what was live
is free; the regions of the others are the same. -/
structure Released (k k' : Kernel) (procName : List BYTE) : Prop where
  victims : ∀ p ∈ victims k procName, ∀ rgid ∈ createdIds (k.pcb p).code,
    ¬ Live (k'.mem.mm p) rgid ∧
      (Live (k.mem.mm p) rgid → (k.mem.mm p).symrgtbl rgid ∈ freeRegions (k'.mem.mm p))
  others : ∀ p, p ∉ Os.victims k procName →
    (k'.mem.mm p).symrgtbl = (k.mem.mm p).symrgtbl ∧
      freeRegions (k'.mem.mm p) = freeRegions (k.mem.mm p)

/-- **When the memory is released**: if every live region that an ALLOC of a victim created
has an id that is the first operand of an ALLOC of the victim, too. -/
theorem released_iff (hname : readName (k.mem.caller caller) a1.toNat = some (procName, c))
    (hroom : (victims k procName).length ≤ maxPrio)
    (harea : ∀ p ∈ victims k procName, ∃ vma, Area (k.mem.mm p) vma) :
    ∃ k', sysKillall k caller a1 = some k' ∧ (Released k k' procName ↔
      ∀ p ∈ victims k procName, ∀ rgid ∈ createdIds (k.pcb p).code,
        Live (k.mem.mm p) rgid → rgid ∈ freedIds (k.pcb p).code) := by
  obtain ⟨k', hk', hfreed, hother⟩ := sysKillall_freed hname hroom harea
  refine ⟨k', hk', ?_⟩
  constructor
  · intro hreleased p hp rgid hrgid hlive
    by_contra hno
    have hsame := (hfreed p hp).kept rgid fun h => hno h.1
    exact (hreleased.victims p hp rgid hrgid).1 ((live_congr hsame).mpr hlive)
  · intro hids
    constructor
    · intro p hp rgid hrgid
      by_cases hlive : Live (k.mem.mm p) rgid
      · obtain ⟨hzero, hmoved⟩ := (hfreed p hp).cleared rgid (hids p hp rgid hrgid hlive) hlive
        exact ⟨not_live_of_zero hzero, fun _ => hmoved⟩
      · have hsame := (hfreed p hp).kept rgid fun h => hlive h.2
        exact ⟨fun h => hlive ((live_congr hsame).mp h), fun h => absurd h hlive⟩
    · intro p hp
      exact ⟨(hother p hp).symrgtbl, (hother p hp).freeRegions_eq⟩

end

/-! ## A victim that has run its program -/

/-- `run` on an ALLOC. -/
def runAlloc (c : Caller) (ins : InsT) : Option Caller :=
  (liballoc .zeroed c ins.arg0.toNat ins.arg1.toNat).map Prod.snd

/-- The devices of the small kernel, with a RAM of four frames: frame 0 is the caller's, the
others are free. -/
def fourFrames : Dev → Memphy :=
  Function.update (smallMem nameB).dev .mram
    ⟨((smallMem nameB).dev .mram).storage, 1024, true, 0, Chain.ofList [1, 2, 3]⟩

/-- Process 1 is `b`, and waits in ready queue 0.  It has run its program, which has only
ALLOCs. -/
def allocated (code : List InsT) : Option Kernel :=
  (code.foldlM runAlloc ⟨initMm .zeroed, fourFrames⟩).map fun c =>
    { smallKernel nameB [1] with
      pcb := Function.update smallPcb 1 (load (readConfigPath nameB) code)
      mem := (smallMem nameB).put 1 c }

/-- Running ALLOCs keeps the one area. -/
theorem unmapped_runAllocs {code : List InsT} {c c' : Caller} (h : Unmapped c)
    (hrun : code.foldlM runAlloc c = some c') : Unmapped c' := by
  induction code generalizing c with
  | nil =>
      obtain rfl := Option.some.inj hrun
      exact h
  | cons ins code ih =>
      rw [List.foldlM_cons] at hrun
      obtain ⟨c₁, hone, hrest⟩ := Option.bind_eq_some_iff.mp hrun
      obtain ⟨r, halloc, rfl⟩ := Option.map_eq_some_iff.mp hone
      exact ih (h.alloc halloc) hrest

theorem area_allocated {code : List InsT} {k : Kernel} (h : allocated code = some k) :
    ∃ vma, Area (k.mem.mm 1) vma := by
  obtain ⟨c, hrun, rfl⟩ := Option.map_eq_some_iff.mp h
  simp only [Shared.put, Function.update_self]
  exact (unmapped_runAllocs (unmapped_initMm rfl) hrun).area

theorem released_iff_own_size :
    ∃ k k', allocated [⟨.alloc, 1, 1, 0, 0⟩] = some k ∧ sysKillall k 0 1 = some k' ∧
      Live (k.mem.mm 1) 1 ∧ Released k k' nameB := by
  have hrun : (allocated [⟨.alloc, 1, 1, 0, 0⟩]).any fun k =>
      (readName (k.mem.caller 0) (1 : BitVec 32).toNat).any (fun r => r.1 = nameB) &&
      decide (victims k nameB = [1] ∧ Live (k.mem.mm 1) 1 ∧
        (k.pcb 1).code = [⟨.alloc, 1, 1, 0, 0⟩]) := by decide +kernel
  obtain ⟨k, hk, hstate⟩ := (Option.any_eq_true _ _).mp hrun
  obtain ⟨hread, hrest⟩ := Bool.and_eq_true_iff.mp hstate
  obtain ⟨hvictims, hlive, hcode⟩ := of_decide_eq_true hrest
  obtain ⟨c, hname⟩ := eq_some_of_any_fst hread
  have harea : ∀ p ∈ victims k nameB, ∃ vma, Area (k.mem.mm p) vma := by
    intro p hp
    rw [hvictims] at hp
    rw [List.mem_singleton.mp hp]
    exact area_allocated hk
  have hroom : (victims k nameB).length ≤ maxPrio := by
    rw [hvictims]
    decide
  obtain ⟨k', hk', hiff⟩ := released_iff hname hroom harea
  refine ⟨k, k', hk, hk', hlive, hiff.mpr ?_⟩
  intro p hp rgid hrgid _
  have hids : freedIds [⟨.alloc, 1, 1, 0, 0⟩] = createdIds [⟨.alloc, 1, 1, 0, 0⟩] := by decide
  rw [hvictims] at hp
  rw [List.mem_singleton.mp hp, hcode] at hrgid ⊢
  rwa [hids]

/-- **A region that stays**: the program allocates 100 bytes as region 1, and `__free` is
called for id 100. -/
theorem region_stays :
    ∃ k k', allocated [⟨.alloc, 100, 1, 0, 0⟩] = some k ∧
      sysKillall k 0 1 = some k' ∧
      (∃ c, readName (k.mem.caller 0) (1 : BitVec 32).toNat = some (nameB, c)) ∧
      ¬ Released k k' nameB := by
  have hrun : (allocated [⟨.alloc, 100, 1, 0, 0⟩]).any fun k =>
      (readName (k.mem.caller 0) (1 : BitVec 32).toNat).any (fun r => r.1 = nameB) &&
      (sysKillall k 0 1).any (fun k' => Live (k'.mem.mm 1) 1) &&
      decide (1 ∈ victims k nameB ∧ 1 ∈ createdIds (k.pcb 1).code) := by decide +kernel
  obtain ⟨k, hk, hstate⟩ := (Option.any_eq_true _ _).mp hrun
  obtain ⟨hruns, hrest⟩ := Bool.and_eq_true_iff.mp hstate
  obtain ⟨hread, hcall⟩ := Bool.and_eq_true_iff.mp hruns
  obtain ⟨hvictim, hcreated⟩ := of_decide_eq_true hrest
  obtain ⟨k', hk', hlive⟩ := (Option.any_eq_true _ _).mp hcall
  refine ⟨k, k', hk, hk', eq_some_of_any_fst hread, ?_⟩
  intro hreleased
  exact (hreleased.victims 1 hvictim 1 hcreated).1 (of_decide_eq_true hlive)

end Os

end SimOs
