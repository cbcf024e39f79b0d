import SimOs.Mm.Frames
import SimOs.Mm.Requests
import SimOs.Os.Syscall
import SimOs.Os.Lockstep
import SimOs.Os.Completion

/-!
# The scheduler over the memory library

So far what an instruction does to memory was a parameter of the scheduler.  Here it is `run` of
`cpu.c` over `libmem.c`, on address spaces that the CPUs do not share and on devices that they
do.  An instruction is one step.  For `ALLOC` and `FREE` this is `mmvm_lock`; `READ` and `WRITE`
take no lock but, as it turns out, never get as far as a device; a program that calls `memmap`
itself takes no lock either, and its call is taken as one step.

`killall` is not a step of this system, and `memmap` may be called with any arguments.

## Main definitions

* `execIns`, `Config.withMemory`, `machine`: the system.
* `InsT.pages`, `World.asked`: the frames that instructions ask for.
* `Booted`, `Unused`: the invariants.
* `frames_ledger`: where the free frames went.
* `spaces_stay_apart`, `memory_never_used`: what the processes have of them.
-/

namespace SimOs

/-- The size of an `ALLOC` is not so large that rounding it to pages overflows an `int`. -/
def InsT.Sized (ins : InsT) : Prop := ins.opcode = .alloc → ins.arg0.toNat ≤ 2 ^ 31 - 256

instance (ins : InsT) : Decidable ins.Sized := inferInstanceAs (Decidable (_ → _))

/-- The number of `memmap` in `syscall.tbl`. -/
def sysMemmapNr : BitVec 32 := 17

/-- A `memmap` system call. -/
def InsT.IsMemmap (ins : InsT) : Prop := ins.opcode = .syscall ∧ ins.arg0 = sysMemmapNr

instance (ins : InsT) : Decidable ins.IsMemmap := inferInstanceAs (Decidable (_ ∧ _))

/-- The frames that an instruction asks for. -/
def InsT.pages (ins : InsT) : ℕ :=
  match ins.opcode with
  | .alloc => (Libmem.reqPages ins.arg0.toNat).toNat
  | .syscall =>
      if ins.IsMemmap then Libmem.memmapPages ⟨ins.arg1, ins.arg2, ins.arg3⟩ else 0
  | _ => 0

end SimOs

namespace SimOs.Os

open SimOs.Sched World Libmem

universe u
variable {μ : Type u} {cfg : Config μ} {n : ℕ} {dev : Dev → Memphy}

/-- The effect of an instruction of process `p`: `run` of `cpu.c` at it.  A call of `memmap` is one
step, although it takes no lock, and one of `killall` is undefined. -/
def execIns (p : ℕ) (ins : InsT) (mem : Shared ℕ) : Option (Shared ℕ) :=
  (Cpu.run .zeroed (libsyscall .zeroed fun _ _ => none)
    ⟨[ins], fun _ => 0, 0, mem.caller p⟩).map fun r => mem.put p r.2.caller

/-- The configuration with the memory library. -/
def Config.withMemory (cfg : Config μ) : Config (Shared ℕ) where
  timeSlot := cfg.timeSlot
  numCpus := cfg.numCpus
  ldProcesses := cfg.ldProcesses
  exec := execIns

/-- The memory when the program starts. -/
def bootMem (dev : Dev → Memphy) : Shared ℕ := ⟨fun _ => initMm .zeroed, dev⟩

/-- All interleavings of the CPUs and the loader, with the memory library on the devices
`dev`. -/
def machine (cfg : Config μ) (dev : Dev → Memphy) :
    Lts (World (Shared ℕ) cfg.numCpus) (Label cfg.numCpus) where
  init w := w = World.init cfg.numCpus (bootMem dev)
  step := osStep cfg.withMemory

/-! ## One instruction -/

/-- The system calls of the table. -/
theorem libsyscall_eq_some {p : Cpu.Process} {ins : InsT} {r : ℤ × Cpu.Process}
    (h : libsyscall .zeroed (fun _ _ => none) p ins = some r) :
    (ins.arg0 = sysMemmapNr ∧ ∃ u, sysMemmap .zeroed p.caller ⟨ins.arg1, ins.arg2, ins.arg3⟩ =
      some u ∧ r.2.caller = u.2) ∨ ins.arg0 ≠ sysMemmapNr ∧ r.2.caller = p.caller := by
  have hnr : ins.arg0 = sysMemmapNr ↔ ins.arg0.toNat = 17 := by
    rw [← BitVec.toNat_inj]
    rfl
  rw [libsyscall, syscall_syscallTbl] at h
  rw [ne_eq, hnr]
  by_cases hlist : ins.arg0.toNat = 0
  · simp [hlist] at h
    simp [hlist, ← h]
  · by_cases hmemmap : ins.arg0.toNat = 17
    · left
      simp [hmemmap] at h
      obtain ⟨a, c, hcall, rfl⟩ := h
      exact ⟨hmemmap, _, hcall, rfl⟩
    · by_cases hkillall : ins.arg0.toNat = 101
      · simp [hkillall] at h
      · simp [hlist, hmemmap, hkillall] at h
        simp [hmemmap, ← h]

variable {vma : VmArea} {rgs : List VmRg} {frames : List ℤ} {mem mem' : Shared ℕ} {p : ℕ}
  {ins : InsT}

/-- What an instruction does to the process that executes it, if no page of it is present: of
the four that reach the library two are refused, and two move regions or frames. -/
inductive InsCase (ins : InsT) (c : Caller) : Caller → Prop
  /-- Nothing: a calculation, an access or another system call. -/
  | kept (halloc : ins.opcode ≠ .alloc) (hfree : ins.opcode ≠ .free) (hmemmap : ¬ ins.IsMemmap) :
      InsCase ins c c
  | alloc (hop : ins.opcode = .alloc) (r : Ret (Option ℤ) × Caller)
      (h : liballoc .zeroed c ins.arg0.toNat ins.arg1.toNat = some r) : InsCase ins c r.2
  | free (hop : ins.opcode = .free) (r : Ret Unit × Caller)
      (h : libfree c ins.arg0.toNat = some r) : InsCase ins c r.2
  | memmap (hmemmap : ins.IsMemmap) (r : ScRegs × Caller)
      (h : sysMemmap .zeroed c ⟨ins.arg1, ins.arg2, ins.arg3⟩ = some r) : InsCase ins c r.2

/-- **The effect of an instruction.** -/
theorem execIns_cases (habsent : Absent (mem.caller p)) (h : execIns p ins mem = some mem') :
    ∃ c, mem' = mem.put p c ∧ InsCase ins (mem.caller p) c := by
  obtain ⟨⟨ret, proc⟩, hrun, rfl⟩ := Option.map_eq_some_iff.mp h
  refine ⟨proc.caller, rfl, ?_⟩
  have hkept : ins.opcode ≠ .alloc → ins.opcode ≠ .free → ins.opcode ≠ .syscall →
      InsCase ins (mem.caller p) (mem.caller p) := fun halloc hfree hsyscall =>
    .kept halloc hfree fun hmemmap => hsyscall hmemmap.1
  rw [Cpu.run] at hrun
  simp only [List.getElem?_cons_zero] at hrun
  cases hop : ins.opcode <;> simp only [hop] at hrun hkept
  · obtain ⟨-, rfl⟩ := Prod.mk.inj (Option.some.inj hrun)
    exact hkept (by simp) (by simp) (by simp)
  case alloc =>
    obtain ⟨r, hr, heq⟩ := Option.map_eq_some_iff.mp hrun
    obtain ⟨-, rfl⟩ := Prod.mk.inj heq
    exact .alloc hop r hr
  case free =>
    obtain ⟨r, hr, heq⟩ := Option.map_eq_some_iff.mp hrun
    obtain ⟨-, rfl⟩ := Prod.mk.inj heq
    exact .free hop r hr
  case read =>
    obtain ⟨r, hr, heq⟩ := Option.map_eq_some_iff.mp hrun
    obtain ⟨-, rfl⟩ := Prod.mk.inj heq
    obtain ⟨u, hu, rfl⟩ := Option.map_eq_some_iff.mp hr
    obtain rfl := habsent.libread_eq_some hu
    exact hkept (by simp) (by simp) (by simp)
  case write =>
    obtain ⟨r, hr, heq⟩ := Option.map_eq_some_iff.mp hrun
    obtain ⟨-, rfl⟩ := Prod.mk.inj heq
    obtain rfl := habsent.libwrite_eq_some hr
    exact hkept (by simp) (by simp) (by simp)
  case syscall =>
    rcases libsyscall_eq_some hrun with ⟨harg, u, hu, hcaller⟩ | ⟨harg, hcaller⟩
    · rw [hcaller]
      exact .memmap ⟨hop, harg⟩ u hu
    · rw [hcaller]
      exact .kept (by simp [hop]) (by simp [hop]) fun hmemmap => harg hmemmap.2

/-- **What it never does**: no instruction makes a page of its process present, and no other
than `memmap` changes a byte of a device. -/
theorem execIns_absent (habsent : Absent (mem.caller p)) (h : execIns p ins mem = some mem') :
    ∃ c, mem' = mem.put p c ∧ Absent c ∧
      (¬ ins.IsMemmap → ∀ d, (c.dev d).storage = (mem.dev d).storage) := by
  obtain ⟨c, hput, hcase⟩ := execIns_cases habsent h
  refine ⟨c, hput, ?_⟩
  cases hcase with
  | kept _ _ _ => exact ⟨habsent, fun _ _ => rfl⟩
  | alloc _ r hr =>
      obtain ⟨hnext, hstorage⟩ := habsent.liballoc hr
      exact ⟨hnext, fun _ => hstorage⟩
  | free _ r hr =>
      obtain ⟨hnext, hstorage⟩ := habsent.libfree hr
      exact ⟨hnext, fun _ => hstorage⟩
  | memmap hmemmap r hr => exact ⟨habsent.memmap hr, fun hno => absurd hmemmap hno⟩

/-- **What it takes**: an instruction takes the frames it asks for. -/
theorem execIns_takes (hspace : Space (mem.caller p) vma rgs frames)
    (habsent : Absent (mem.caller p)) (hsized : ins.Sized) (h : execIns p ins mem = some mem') :
    ∃ c, mem' = mem.put p c ∧ Takes ins.pages frames (mem.caller p) c := by
  obtain ⟨c, hput, hcase⟩ := execIns_cases habsent h
  refine ⟨c, hput, ?_⟩
  cases hcase with
  | kept halloc hfree hmemmap =>
      have hpages : ins.pages = 0 := by
        rw [InsT.pages]
        split
        · next hop => exact absurd hop halloc
        · rw [if_neg hmemmap]
        · rfl
      rw [hpages]
      exact .refl hspace
  | alloc hop r hr =>
      have hpages : ins.pages = (reqPages ins.arg0.toNat).toNat := by rw [InsT.pages, hop]
      have hsize := hsized hop
      rw [hpages]
      exact hspace.liballoc_takes (by omega) (by omega) hr
  | free hop r hr =>
      have hpages : ins.pages = 0 := by rw [InsT.pages, hop]
      obtain ⟨r', hr', htakes⟩ := hspace.libfree_takes ins.arg0.toNat
      obtain rfl := Option.some.inj (hr'.symm.trans hr)
      rw [hpages]
      exact htakes
  | memmap hmemmap r hr =>
      have hpages : ins.pages = memmapPages ⟨ins.arg1, ins.arg2, ins.arg3⟩ := by
        rw [InsT.pages, hmemmap.1]
        exact if_pos hmemmap
      rw [hpages]
      exact hspace.memmap_takes hr

/-! ## The invariant of the memory -/

/-- The devices with which the program may start. -/
structure Boots (dev : Dev → Memphy) (frames : List ℤ) : Prop where
  freeFpList : (dev .mram).freeFpList = Chain.ofList frames
  room : (pagingPagesz : ℤ) * frames.length ≤ (dev .mram).maxsz
  maxsz_lt : (dev .mram).maxsz < 2 ^ 31

/-- The caller of a call gets its new state. -/
theorem caller_put_self (mem : Shared ℕ) (p : ℕ) (c : Caller) : (mem.put p c).caller p = c := by
  simp [Shared.put, Shared.caller]

/-- The others keep theirs, apart from the devices. -/
theorem mm_caller_put (mem : Shared ℕ) (c : Caller) {p q : ℕ} (hq : q ≠ p) :
    ((mem.put p c).caller q).mm = (mem.caller q).mm := by
  simp [Shared.put, Shared.caller, hq]

/-- Every process has an address space of its own, over the same free frames, and no page. -/
structure Booted (mem : Shared ℕ) (frames : List ℤ) : Prop where
  space : ∀ p, ∃ vma rgs, Space (mem.caller p) vma rgs frames
  absent : ∀ p, Absent (mem.caller p)

/-- Those that `init_memphy` makes. -/
theorem boots_initMemphy {fpNext : Chain ℤ} {old : Memphy} {maxSize : ℤ} (randomflg : Bool)
    (hmin : 512 ≤ maxSize) (hmax : maxSize < 2 ^ 31)
    (hdev : dev .mram = Memphy.initMemphy fpNext old maxSize randomflg) :
    Boots dev (Memphy.allFrames (maxSize / 256).toNat) where
  freeFpList := by
    rw [hdev]
    exact Memphy.freeFpList_initMemphy randomflg (by omega) (by omega) (by omega)
  room := by
    rw [hdev, Memphy.maxsz_initMemphy, Memphy.length_allFrames, pagingPagesz]
    omega
  maxsz_lt := by
    rw [hdev, Memphy.maxsz_initMemphy]
    exact hmax

theorem booted_bootMem (h : Boots dev frames) : Booted (bootMem dev) frames where
  space p := by
    obtain ⟨vma, rgs, fs, hlayout⟩ := layout_initMm (c := (bootMem dev).caller p) rfl
      ⟨frames, h.freeFpList, h.room, h.maxsz_lt⟩
    obtain rfl : fs = frames :=
      Chain.ofList_injective (hlayout.frames_eq.symm.trans h.freeFpList)
    refine ⟨vma, rgs, hlayout, ?_⟩
    obtain ⟨rfl, -⟩ := Chain.node.inj hlayout.area.mmap
    have hrgs : rgs = [⟨0, 0⟩] := Chain.ofList_injective (hlayout.free_eq.symm.trans rfl)
    rw [hrgs]
    simp
  absent p := (unmapped_initMm rfl).absent

/-- **One call** of a process, which the others see in the devices only. -/
theorem Booted.put (h : Booted mem frames) {k : ℕ} {c : Caller}
    (htakes : Takes k frames (mem.caller p) c) : Booted (mem.put p c) (frames.drop k) := by
  obtain ⟨vma, rgs, hspace⟩ := htakes.space
  constructor
  · intro j
    by_cases hj : j = p
    · rw [hj, caller_put_self]
      exact htakes.space
    · obtain ⟨vmaj, rgsj, hspacej⟩ := h.space j
      have hlen : (frames.drop k).length ≤ frames.length := by simp
      exact ⟨vmaj, rgsj, hspacej.dev (mm_caller_put mem c hj) hspace.frames_eq hlen htakes.maxsz⟩
  · intro j
    by_cases hj : j = p
    · rw [hj, caller_put_self]
      exact htakes.absent (h.absent p)
    · exact (h.absent j).of_mm (mm_caller_put mem c hj)

/-! ## The runs -/

/-- What `run` does to the memory. -/
theorem run_mem {w v : World μ n} {p : ℕ} (h : run cfg w p = some v) :
    (v.mem = w.mem ∧ v.executed = w.executed) ∨ ∃ ins, (cfg.code p)[w.pc p]? = some ins ∧
      cfg.exec p ins w.mem = some v.mem ∧
      v.executed = Function.update w.executed p (w.executed p ++ [ins]) := by
  rw [run] at h
  split at h
  · obtain rfl := Option.some.inj h
    exact Or.inl ⟨rfl, rfl⟩
  · next ins hins =>
      split at h
      · cases h
      · obtain ⟨mem, hmem, rfl⟩ := Option.map_eq_some_iff.mp h
        exact Or.inr ⟨ins, hins, hmem, rfl⟩

/-- What a step does to the memory: nothing, or the next instruction of a process. -/
theorem osStep_mem {w v : World μ n} {l : Label n} (h : osStep cfg w l = some v) :
    (v.mem = w.mem ∧ v.executed = w.executed) ∨ ∃ p ins, (cfg.code p)[w.pc p]? = some ins ∧
      cfg.exec p ins w.mem = some v.mem ∧
      v.executed = Function.update w.executed p (w.executed p ++ [ins]) := by
  cases l with
  | cpu i =>
      cases cpuStep_cases h with
      | run p c v _ _ _ hv =>
          rcases run_mem hv with hsame | ⟨ins, hins, hmem, hexec⟩
          · exact Or.inl hsame
          · exact Or.inr ⟨p, ins, hins, hmem, hexec⟩
      | _ => exact Or.inl ⟨rfl, rfl⟩
  | loader =>
      have hld := ldStep_lines h
      generalize w.ld.line = line at hld
      cases hld <;> exact Or.inl ⟨rfl, rfl⟩
  | loaderWait =>
      obtain rfl := osStep_loaderWait h
      exact Or.inl ⟨rfl, rfl⟩

/-- The frames that the first `m` processes have asked for. -/
def World.asked (w : World μ n) (m : ℕ) : ℕ :=
  ∑ p ∈ Finset.range m, ((w.executed p).map InsT.pages).sum

/-- An instruction of process `p` adds what it asks for. -/
theorem asked_update {w v : World μ n} {m p : ℕ} {ins : InsT} (hp : p < m)
    (h : v.executed = Function.update w.executed p (w.executed p ++ [ins])) :
    v.asked m = w.asked m + ins.pages := by
  have hsum := sum_update_add (Finset.mem_range.mpr hp) (fun l => (l.map InsT.pages).sum)
    w.executed (w.executed p ++ [ins])
  simp only [List.map_append, List.sum_append, List.map_cons, List.map_nil, List.sum_singleton]
    at hsum
  rw [asked, asked, h]
  omega

/-- A process that has an instruction is one of the configuration. -/
theorem lt_of_code {p pc : ℕ} {ins : InsT} (h : (cfg.code p)[pc]? = some ins) :
    p < cfg.ldProcesses.length ∧ ins ∈ cfg.code p := by
  refine ⟨?_, List.mem_of_getElem? h⟩
  by_contra hp
  have hnone : cfg.ldProcesses[p]? = none := List.getElem?_eq_none (Nat.le_of_not_lt hp)
  rw [Config.code, hnone] at h
  cases h

/-- The frames that a program asks for. -/
def Config.pages (cfg : Config μ) (p : ℕ) : ℕ := ((cfg.code p).map InsT.pages).sum

/-- The memory of the system, which the program started on the free frames `frames`. -/
structure Ledger (cfg : Config μ) (frames : List ℤ) (w : World (Shared ℕ) n) : Prop where
  /-- The frames that were asked for are gone. -/
  booted : Booted w.mem (frames.drop (w.asked cfg.ldProcesses.length))
  /-- The address spaces together with the free frames fit in the frames of the start. -/
  brk : ∑ p ∈ Finset.range cfg.ldProcesses.length, brk (w.mem.mm p) +
      pagingPagesz * (frames.drop (w.asked cfg.ldProcesses.length)).length ≤
    pagingPagesz * frames.length

/-- **One step.** -/
theorem Ledger.step {w v : World (Shared ℕ) n} {l : Label n}
    (hsized : ∀ p, ∀ ins ∈ cfg.code p, ins.Sized) (h : Ledger cfg frames w)
    (hstep : osStep cfg.withMemory w l = some v) : Ledger cfg frames v := by
  rcases osStep_mem hstep with ⟨hmem, hexecuted⟩ | ⟨p, ins, hins, hexec, hexecuted⟩
  · have hasked : v.asked cfg.ldProcesses.length = w.asked cfg.ldProcesses.length := by
      rw [asked, asked, hexecuted]
    constructor
    · rw [hmem, hasked]
      exact h.booted
    · rw [hmem, hasked]
      exact h.brk
  · have hloaded : p < cfg.ldProcesses.length ∧ ins ∈ cfg.code p := lt_of_code hins
    obtain ⟨hp, hcode⟩ := hloaded
    have hasked : v.asked cfg.ldProcesses.length = w.asked cfg.ldProcesses.length + ins.pages :=
      asked_update hp hexecuted
    obtain ⟨vma, rgs, hspace⟩ := h.booted.space p
    obtain ⟨c, hc, htakes⟩ :=
      execIns_takes hspace (h.booted.absent p) (hsized p ins hcode) hexec
    have hbooted := h.booted.put htakes
    rw [List.drop_drop] at hbooted
    constructor
    · rw [hc, hasked]
      exact hbooted
    · -- The break of `p` moves by no more than the frames it took.
      have hsum := sum_update_add (Finset.mem_range.mpr hp) Libmem.brk w.mem.mm c.mm
      have hbrk := htakes.brk
      have hold := h.brk
      rw [List.drop_drop] at hbrk
      rw [hc, hasked]
      simp only [Shared.put, Shared.caller] at hbrk ⊢
      omega

/-- **Every run.** -/
theorem reachable_ledger {w : World (Shared ℕ) cfg.numCpus} (hdev : Boots dev frames)
    (hsized : ∀ p, ∀ ins ∈ cfg.code p, ins.Sized) (h : (machine cfg dev).Reachable w) :
    Ledger cfg frames w := by
  refine h.invariant (P := Ledger cfg frames) ?_ fun _ _ _ hs hstep => hs.step hsized hstep
  rintro w rfl
  have hasked : (World.init cfg.numCpus (bootMem dev)).asked cfg.ldProcesses.length = 0 := by
    simp [asked, World.init]
  have hbrk : brk (initMm .zeroed) = 0 := by decide
  constructor
  · rw [hasked]
    exact booted_bootMem hdev
  · rw [hasked]
    simp [World.init, bootMem, hbrk]

/-- No process has a page, and the devices hold the bytes of the start unless a program calls
`memmap`. -/
structure Unused (cfg : Config μ) (dev : Dev → Memphy) (mem : Shared ℕ) : Prop where
  absent : ∀ p, Absent (mem.caller p)
  storage : (∀ p, ∀ ins ∈ cfg.code p, ¬ ins.IsMemmap) →
    ∀ d, (mem.dev d).storage = (dev d).storage

theorem unused_bootMem (cfg : Config μ) (dev : Dev → Memphy) : Unused cfg dev (bootMem dev) where
  absent _ := (unmapped_initMm rfl).absent
  storage _ _ := rfl

/-- **One instruction.** -/
theorem Unused.exec (h : Unused cfg dev mem) (hcode : ins ∈ cfg.code p)
    (hexec : execIns p ins mem = some mem') : Unused cfg dev mem' := by
  obtain ⟨c, rfl, hnext, hstorage⟩ := execIns_absent (h.absent p) hexec
  constructor
  · intro q
    by_cases hq : q = p
    · rw [hq, caller_put_self]
      exact hnext
    · exact (h.absent q).of_mm (mm_caller_put mem c hq)
  · intro hno d
    rw [← h.storage hno d]
    exact hstorage (hno p ins hcode) d

/-- **Every run.** -/
theorem reachable_unused {w : World (Shared ℕ) cfg.numCpus} (h : (machine cfg dev).Reachable w) :
    Unused cfg dev w.mem := by
  refine h.invariant (P := fun w => Unused cfg dev w.mem) ?_ ?_
  · rintro w rfl
    exact unused_bootMem cfg dev
  · intro w l v hw hstep
    rcases osStep_mem hstep with ⟨hmem, -⟩ | ⟨p, ins, hins, hexec, -⟩
    · rwa [hmem]
    · have hcode : ins ∈ cfg.code p := List.mem_of_getElem? hins
      exact hw.exec hcode hexec

/-- A run with the memory library is a run of the scheduler. -/
theorem machine_simulates (cfg : Config μ) (dev : Dev → Memphy) :
    (osSystem cfg.withMemory).Simulates (machine cfg dev) id where
  init _ hw := ⟨bootMem dev, hw⟩
  step _ l _ hstep := ⟨[l], Lts.run_cons_of_step _ hstep []⟩

/-! ## Results -/

/-- One process, which allocates 300 bytes and writes to them. -/
abbrev allocWrite : Setup Unit where
  timeSlot := 2
  numCpus := 1
  ldProcesses := [⟨1, [⟨.alloc, 300, 0, 0, 0⟩, ⟨.write, 7, 0, 0, 0⟩]⟩]
  exec _ _ _ := some ()
  startTime _ := 0

/-- Devices of `maxSize` bytes. -/
def freshDevs (maxSize : ℤ) : Dev → Memphy := fun _ =>
  Memphy.initMemphy .null ⟨fun _ => 0, 0, false, 0, .null⟩ maxSize true

theorem boots_freshDevs {maxSize : ℤ} (hmin : 512 ≤ maxSize) (hmax : maxSize < 2 ^ 31) :
    Boots (freshDevs maxSize) (Memphy.allFrames (maxSize / 256).toNat) :=
  boots_initMemphy true hmin hmax rfl

/-- Three frames. -/
theorem boots_three : Boots (freshDevs 768) (Memphy.allFrames 3) :=
  boots_freshDevs (by decide) (by decide)

theorem sized_allocWrite : ∀ p, ∀ ins ∈ allocWrite.code p, ins.Sized := by
  intro p
  cases p with
  | zero => exact (by decide : ∀ ins ∈ allocWrite.code 0, ins.Sized)
  | succ p => exact fun ins hins => absurd hins List.not_mem_nil

/-- The process is loaded and run to its end. -/
theorem exists_run_allocWrite :
    ∃ w, (machine allocWrite.toConfig (freshDevs 768)).Reachable w ∧ w.finished = [0] := by
  have hrun : ((machine allocWrite.toConfig (freshDevs 768)).run
      (World.init 1 (bootMem (freshDevs 768)))
      (List.replicate 4 .loader ++ List.replicate 13 (.cpu 0))).any
      (fun w => w.finished = [0]) = true := by decide +kernel
  obtain ⟨w, hw, hfin⟩ := (Option.any_eq_true _ _).mp hrun
  exact ⟨w, ⟨_, _, rfl, hw⟩, of_decide_eq_true hfin⟩

/-- **The ledger of the frames**: whatever the interleaving of the CPUs and the loader, the free
frames are those of the start without the first ones, as many as the instructions executed so
far asked for.  In particular those that the processes asked for which have finished are not
free.  The conditions are that the blocks of the memory library are cleared, those of the address
spaces in `bootMem` and those of the frame lists in `execIns`, and that no size overflows in the
rounding; a call of `memmap`, which takes no lock, is one step. -/
theorem frames_ledger {w : World (Shared ℕ) cfg.numCpus} (hdev : Boots dev frames)
    (hsized : ∀ p, ∀ ins ∈ cfg.code p, ins.Sized) (h : (machine cfg dev).Reachable w) :
    (w.mem.dev .mram).freeFpList =
        Chain.ofList (frames.drop (w.asked cfg.ldProcesses.length)) ∧
      ∑ p ∈ Finset.range cfg.ldProcesses.length with p ∈ w.finished, cfg.pages p ≤
        w.asked cfg.ldProcesses.length := by
  have hledger := reachable_ledger hdev hsized h
  have hsound : Sound cfg.withMemory w := reachable_sound ((machine_simulates cfg dev).reachable h)
  constructor
  · obtain ⟨vma, rgs, hspace⟩ := hledger.booted.space 0
    exact hspace.frames_eq
  · have hexec : ∀ p ∈ (Finset.range cfg.ldProcesses.length).filter (· ∈ w.finished),
        cfg.pages p = ((w.executed p).map InsT.pages).sum := by
      intro p hp
      rw [hsound.executed_of_finished (Finset.mem_filter.mp hp).2]
      rfl
    rw [Finset.sum_congr rfl hexec]
    exact Finset.sum_le_sum_of_subset (Finset.filter_subset _ _)

theorem frames_ledger_allocWrite :
    ∃ w, (machine allocWrite.toConfig (freshDevs 768)).Reachable w ∧ w.finished = [0] ∧
      (w.mem.dev .mram).freeFpList = Chain.ofList ((Memphy.allFrames 3).drop (w.asked 1)) ∧
      ∑ p ∈ Finset.range 1 with p ∈ w.finished, allocWrite.pages p ≤ w.asked 1 := by
  obtain ⟨w, hw, hfin⟩ := exists_run_allocWrite
  exact ⟨w, hw, hfin, frames_ledger boots_three sized_allocWrite hw⟩

/-- **The address spaces stay apart**: whatever the interleaving, in the space of every process
an address is in one region at most, every region that is recorded or free lies below the
break, which is at the border of a page, and all spaces together with the free frames are no
larger than RAM was at the start.  The conditions are those of `frames_ledger`. -/
theorem spaces_stay_apart {w : World (Shared ℕ) cfg.numCpus} (hdev : Boots dev frames)
    (hsized : ∀ p, ∀ ins ∈ cfg.code p, ins.Sized) (h : (machine cfg dev).Reachable w) :
    (∀ p a, holders (w.mem.mm p) a ≤ 1) ∧
      (∀ p a, holders (w.mem.mm p) a ≠ 0 → 0 ≤ a ∧ a < brk (w.mem.mm p)) ∧
      (∀ p, (pagingPagesz : ℤ) ∣ brk (w.mem.mm p)) ∧
      ∑ p ∈ Finset.range cfg.ldProcesses.length, brk (w.mem.mm p) +
          pagingPagesz * ((w.mem.dev .mram).freeFpList.toList).length ≤
        pagingPagesz * frames.length := by
  have hledger := reachable_ledger hdev hsized h
  refine ⟨?_, ?_, ?_, ?_⟩
  · intro p a
    obtain ⟨vma, rgs, hspace⟩ := hledger.booted.space p
    exact hspace.holders_le a
  · intro p a ha
    obtain ⟨vma, rgs, hspace⟩ := hledger.booted.space p
    have hbrk : brk (w.mem.mm p) = vma.sbrk := hspace.brk_eq
    rw [hbrk]
    by_contra hout
    exact ha (hspace.inside a (by omega))
  · intro p
    obtain ⟨vma, rgs, hspace⟩ := hledger.booted.space p
    have hbrk : brk (w.mem.mm p) = vma.sbrk := hspace.brk_eq
    rw [hbrk]
    exact hspace.brk_dvd
  · obtain ⟨vma, rgs, hspace⟩ := hledger.booted.space 0
    have hfree : (w.mem.dev .mram).freeFpList =
        Chain.ofList (frames.drop (w.asked cfg.ldProcesses.length)) := hspace.frames_eq
    rw [hfree, Chain.toList_ofList]
    exact hledger.brk

theorem spaces_stay_apart_allocWrite :
    ∃ w, (machine allocWrite.toConfig (freshDevs 768)).Reachable w ∧ w.finished = [0] ∧
      (∀ p a, holders (w.mem.mm p) a ≤ 1) ∧
      (∀ p a, holders (w.mem.mm p) a ≠ 0 → 0 ≤ a ∧ a < brk (w.mem.mm p)) ∧
      (∀ p, (pagingPagesz : ℤ) ∣ brk (w.mem.mm p)) ∧
      ∑ p ∈ Finset.range 1, brk (w.mem.mm p) +
          pagingPagesz * ((w.mem.dev .mram).freeFpList.toList).length ≤
        pagingPagesz * (Memphy.allFrames 3).length := by
  obtain ⟨w, hw, hfin⟩ := exists_run_allocWrite
  exact ⟨w, hw, hfin, spaces_stay_apart boots_three sized_allocWrite hw⟩

/-- **No process ever uses memory**: if the blocks of the memory library are cleared then,
whatever the programs, the devices and the interleaving, no page of a process is present,
every read and every write for which the code is defined returns -1 and changes nothing, and
unless a program calls `memmap` the devices hold the bytes of the start. -/
theorem memory_never_used {w : World (Shared ℕ) cfg.numCpus} (h : (machine cfg dev).Reachable w) :
    (∀ p pgn, pgn < pagingMaxPgn → ¬ PagePresent ((w.mem.mm p).pgd pgn)) ∧
      (∀ p source offset r, libread (w.mem.caller p) source offset = some r →
        r = (.err, w.mem.caller p)) ∧
      (∀ p data destination offset r,
        libwrite (w.mem.caller p) data destination offset = some r →
          r = (.err, w.mem.caller p)) ∧
      ((∀ p, ∀ ins ∈ cfg.code p, ¬ ins.IsMemmap) →
        ∀ d, (w.mem.dev d).storage = (dev d).storage) := by
  have hunused := reachable_unused h
  refine ⟨?_, ?_, ?_, hunused.storage⟩
  · intro p pgn hpgn
    exact (hunused.absent p).pgd pgn hpgn
  · intro p source offset r hr
    exact (hunused.absent p).libread_eq_some hr
  · intro p data destination offset r hr
    exact (hunused.absent p).libwrite_eq_some hr

theorem memory_never_used_allocWrite :
    ∃ w, (machine allocWrite.toConfig (freshDevs 768)).Reachable w ∧ w.finished = [0] ∧
      (∀ p pgn, pgn < pagingMaxPgn → ¬ PagePresent ((w.mem.mm p).pgd pgn)) ∧
      (∀ p source offset r, libread (w.mem.caller p) source offset = some r →
        r = (.err, w.mem.caller p)) ∧
      (∀ p data destination offset r,
        libwrite (w.mem.caller p) data destination offset = some r →
          r = (.err, w.mem.caller p)) ∧
      ((∀ p, ∀ ins ∈ allocWrite.code p, ¬ ins.IsMemmap) →
        ∀ d, (w.mem.dev d).storage = (freshDevs 768 d).storage) := by
  obtain ⟨w, hw, hfin⟩ := exists_run_allocWrite
  exact ⟨w, hw, hfin, memory_never_used hw⟩

end SimOs.Os
