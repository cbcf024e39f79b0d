import SimOs.Mm.Exchange
import SimOs.Mm.RegionIds
import SimOs.Mm.Resident

/-!
# Running an instruction

`run` of `cpu.c` copies the instruction at `pc` into a local variable and calls the memory
library.  For `READ` it passes `libread` a pointer to `arg_2` of this copy.  So the byte that
was read replaces the number of the destination register, in a variable that ends with
`run`, and no register is ever written.  `read`, which the build without paging calls
instead, writes the register.

A system call is the parameter `libsyscall`: it reaches every part of the system.

## Main definitions

* `Process`, `run`: `run` and what it uses of a process.
* `read`: the `READ` of the build without paging.
* `Delivered`: the destination register has the byte, and nothing else has changed.
* `delivered_iff`: exactly when a `READ` delivers.
-/

namespace SimOs.Cpu

open Libmem

/-- What `run` uses of `struct pcb_t`. -/
structure Process where
  /-- `code->text`, of which `code->size` is the length. -/
  code : List InsT
  /-- The entries of `regs` are 0 to 9. -/
  regs : ℕ → BitVec 32
  pc : ℕ
  caller : Caller

/-- The length of `regs`. -/
def numRegs : ℕ := 10

/-- Replace the memory. -/
def Process.setCaller (p : Process) (c : Caller) : Process := { p with caller := c }

/-- The `int` that a memory function returns. -/
def stat {α : Type} : Ret α → ℤ
  | .ok _ => 0
  | .err => -1

/-- `calc`. -/
def calcIns (_p : Process) : ℤ := 0

/-- `libread(proc, ins.arg_0, ins.arg_1, &ins.arg_2)`, with the instruction as it is
afterwards. -/
def libreadArg2 (c : Caller) (ins : InsT) : Option (ℤ × InsT × Caller) :=
  (libread c ins.arg0.toNat ins.arg1.toNat).map fun r =>
    match r with
    | (.ok data, c) => (0, { ins with arg2 := data }, c)
    | (.err, c) => (-1, { ins with arg2 := -1 }, c)

/-- `run`. -/
def run (fresh : Fresh) (libsyscall : Process → InsT → Option (ℤ × Process)) (p : Process) :
    Option (ℤ × Process) :=
  match p.code[p.pc]? with
  | none => some (1, p)
  | some ins =>
      let p := { p with pc := p.pc + 1 }
      match ins.opcode with
      | .calc => some (calcIns p, p)
      | .alloc => (liballoc fresh p.caller ins.arg0.toNat ins.arg1.toNat).map fun r =>
          (stat r.1, p.setCaller r.2)
      | .free => (libfree p.caller ins.arg0.toNat).map fun r => (stat r.1, p.setCaller r.2)
      -- `ins` is a local variable, and is not used any more
      | .read => (libreadArg2 p.caller ins).map fun r => (r.1, p.setCaller r.2.2)
      | .write =>
          (libwrite p.caller (ins.arg0.setWidth 8) ins.arg1.toNat ins.arg2.toNat).map fun r =>
            (stat r.1, p.setCaller r.2)
      | .syscall => libsyscall p ins

/-- `read`: the `READ` of the build without paging.  `readMem` is `read_mem`, the status it
returns and the byte it stores through its pointer. -/
def read (readMem : BitVec 32 → Process → ℤ × BYTE) (p : Process)
    (source offset destination : BitVec 32) : Option (ℤ × Process) :=
  if source.toNat < numRegs then
    let r := readMem (p.regs source.toNat + offset) p
    if r.1 ≠ 0 then
      if destination.toNat < numRegs then
        some (0, { p with
          regs := Function.update p.regs destination.toNat (r.2.signExtend 32) })
      else none
    else some (1, p)
  else none

/-! ## What a `READ` is for -/

/-- The destination register holds the byte, the other registers and the code are as before,
and the memory is `c`. -/
structure Delivered (p p' : Process) (destination : BitVec 32) (data : BYTE) (c : Caller) :
    Prop where
  register : p'.regs destination.toNat = data.signExtend 32
  others : ∀ r, r ≠ destination.toNat → p'.regs r = p.regs r
  code : p'.code = p.code
  memory : p'.caller = c

/-- **Without paging** a `READ` that succeeds delivers the byte that `read_mem` stored. -/
theorem read_delivers {readMem : BitVec 32 → Process → ℤ × BYTE} {p p' : Process}
    {source offset destination : BitVec 32}
    (h : read readMem p source offset destination = some (0, p')) :
    Delivered p p' destination (readMem (p.regs source.toNat + offset) p).2 p.caller := by
  rw [read] at h
  split at h
  · simp only at h
    split at h
    · split at h
      · obtain ⟨-, rfl⟩ := Prod.mk.inj (Option.some.inj h)
        constructor
        · exact Function.update_self ..
        · intro r hr
          exact Function.update_of_ne hr _ _
        · rfl
        · rfl
      · cases h
    · have hstat := (Prod.mk.inj (Option.some.inj h)).1
      omega
  · cases h

/-! ## The place of an access -/

/-- The byte stored at an address: in the frame of its page, or in the swap frame of a page
that is not present. -/
def placeByte (c : Caller) (addr : ℤ) : BYTE :=
  let pte := c.mm.pgd (pagingPgn addr)
  if PagePresent pte then (c.dev .mram).storage (physAddr (pagingFpn pte) (pagingOffst addr))
  else (c.dev .activeMswp).storage (physAddr (pagingPteSwp pte) (pagingOffst addr))

variable {c c' : Caller} {rgid offset : ℤ} {value : BitVec 32}

/-- A `libread` that succeeds finds an area. -/
theorem hasArea_of_libread (h : libread c rgid offset = some (.ok value, c')) : HasArea c.mm := by
  by_contra hno
  unfold libread at h
  rw [Libmem.read, regionAddr] at h
  cases hsym : getSymrgByid c.mm (CInt.sint 32 rgid) with
  | none => simp [hsym] at h
  | some currg =>
      cases harea : getVmaByNum c.mm 0 with
      | none => simp [hsym, harea] at h
      | some curVma =>
          cases curVma with
          | none => cases currg <;> simp [hsym, harea] at h
          | some k => exact hno ⟨k, harea⟩

/-- It goes through an id of the table. -/
theorem isSymbol_of_libread (h0 : 0 ≤ rgid) (hlt : rgid < 2 ^ 32)
    (h : libread c rgid offset = some (.ok value, c')) : IsSymbol rgid := by
  by_contra hout
  have hout' := (sint_outside h0 hlt hout).1
  rw [libread_outside (hasArea_of_libread h) hout'] at h
  split at h
  · cases h
  · cases h

/-- **A `libread` that succeeds** is an access to the byte at its address. -/
theorem pgGetval_of_libread (h0 : 0 ≤ rgid) (hlt : rgid < 2 ^ 32)
    (h : libread c rgid offset = some (.ok value, c')) :
    ∃ data, pgGetval c (accessAddr c rgid offset) = some (.ok data, c') ∧
      value = data.signExtend 32 := by
  have harea := hasArea_of_libread h
  have hid := isSymbol_of_libread h0 hlt h
  unfold libread at h
  rw [read_symbol harea hid] at h
  split at h
  · cases h
  · cases h
  · next data c₁ hget =>
      obtain ⟨-, -, heq⟩ := Option.map_eq_some_iff.mp h
      obtain ⟨hvalue, rfl⟩ := Prod.mk.inj heq
      exact ⟨data, hget, (Ret.ok.inj hvalue).symm⟩

/-- An access to a present page reads the byte at the place, and changes nothing. -/
theorem pgGetval_present {addr : ℤ} {data : BYTE}
    (hpresent : PagePresent (c.mm.pgd (pagingPgn addr)))
    (h : pgGetval c addr = some (.ok data, c')) : data = placeByte c addr ∧ c' = c := by
  rw [pgGetval, pgGetpage_pagingPgn hpresent] at h
  obtain ⟨⟨r, mp⟩, hread, heq⟩ := Option.map_eq_some_iff.mp h
  obtain ⟨rfl, rfl⟩ := Prod.mk.inj heq
  obtain ⟨rfl, herr | ⟨-, hok⟩⟩ := Memphy.read_eq_some hread
  · cases herr
  · refine ⟨?_, c.setDev_dev .mram⟩
    simp only [placeByte, if_pos hpresent]
    exact Ret.ok.inj hok

/-- So does an access that exchanges two pages, but for the exchange. -/
theorem pgGetval_faulting {addr t v f s : ℤ} {newer rest : List ℤ} {data : BYTE}
    (hfault : Faulting c (pagingPgn addr) t v f s newer rest)
    (h : pgGetval c addr = some (.ok data, c')) : data = placeByte c addr := by
  obtain ⟨c₁, hpage, hexchanged⟩ : ∃ c₁, pgGetpage c (pagingPgn addr) = some (.ok f, c₁) ∧
      Exchanged c c₁ (pagingPgn addr) t v f s newer rest := ⟨_, hfault.pgGetpage_eq,
    hfault.exchanged_spec⟩
  have hoff := pagingOffst_lt addr
  have habsent := hfault.absent
  have htarget := hfault.target
  rw [Int.toNat_natCast] at habsent htarget
  rw [pgGetval, hpage] at h
  obtain ⟨⟨r, mp⟩, hread, heq⟩ := Option.map_eq_some_iff.mp h
  obtain ⟨rfl, rfl⟩ := Prod.mk.inj heq
  obtain ⟨rfl, herr | ⟨-, hok⟩⟩ := Memphy.read_eq_some hread
  · cases herr
  · have hcell := hexchanged.ram_frame _ hoff
    have hram := (cellAddr_inside hfault.ram hfault.frame_inside hoff).1
    have hswap := (cellAddr_inside hfault.swap hfault.target_inside hoff).1
    rw [cellAddr_eq] at hram hswap
    simp only [placeByte, if_neg habsent, htarget, hswap]
    rw [← hcell, ← hram]
    exact Ret.ok.inj hok

/-! ## What `run` does -/

/-- **A `READ` whose `libread` succeeds** moves `pc` and the memory, and nothing else. -/
theorem run_read {fresh : Fresh} {libsyscall : Process → InsT → Option (ℤ × Process)}
    {p : Process} {ins : InsT} (hins : p.code[p.pc]? = some ins) (hop : ins.opcode = .read)
    (h : libread p.caller ins.arg0.toNat ins.arg1.toNat = some (.ok value, c')) :
    run fresh libsyscall p = some (0, { p with pc := p.pc + 1, caller := c' }) := by
  rw [run, hins]
  simp only [hop, libreadArg2, h, Option.map_some]
  rfl

/-- The address that a `READ` reads. -/
def readAddr (p : Process) (ins : InsT) : ℤ :=
  accessAddr p.caller ins.arg0.toNat ins.arg1.toNat

/-- **Exactly when a `READ` delivers its byte**: when the destination register holds it
already.  If the page is in RAM, the byte is what `libread` returned, and no byte of memory
has changed; if it comes in from the swap, the byte is that of its swap frame. -/
theorem delivered_iff {fresh : Fresh} {libsyscall : Process → InsT → Option (ℤ × Process)}
    {p : Process} {ins : InsT} (hins : p.code[p.pc]? = some ins) (hop : ins.opcode = .read)
    (h : libread p.caller ins.arg0.toNat ins.arg1.toNat = some (.ok value, c')) :
    ∃ p', run fresh libsyscall p = some (0, p') ∧
      (PagePresent (p.caller.mm.pgd (pagingPgn (readAddr p ins))) →
        value = (placeByte p.caller (readAddr p ins)).signExtend 32 ∧ c' = p.caller) ∧
      (∀ t v f s newer rest,
        Faulting p.caller (pagingPgn (readAddr p ins)) t v f s newer rest →
        value = (placeByte p.caller (readAddr p ins)).signExtend 32) ∧
      (Delivered p p' ins.arg2 (placeByte p.caller (readAddr p ins)) c' ↔
        p.regs ins.arg2.toNat = (placeByte p.caller (readAddr p ins)).signExtend 32) := by
  obtain ⟨data, hget, rfl⟩ := pgGetval_of_libread (Int.natCast_nonneg _)
    (by exact_mod_cast ins.arg0.isLt) h
  refine ⟨_, run_read hins hop h, ?_, ?_, ?_⟩
  · intro hpresent
    obtain ⟨rfl, rfl⟩ := pgGetval_present hpresent hget
    exact ⟨rfl, rfl⟩
  · intro t v f s newer rest hfault
    obtain rfl := pgGetval_faulting hfault hget
    rfl
  · constructor
    · intro hdelivered
      exact hdelivered.register
    · intro hheld
      exact ⟨hheld, fun _ _ => rfl, rfl, rfl⟩

/-- A process that reads the first byte of region 0 into register 3.  The region is in RAM
frame 0, which holds the byte 7. -/
def reader : Process where
  code := [⟨.read, 0, 0, 3, 0⟩]
  regs _ := 0
  pc := 0
  caller :=
    { mm := { initMm .zeroed with
        pgd := fun _ => pteSetFpn 0 0
        symrgtbl := fun _ => ⟨0, 100⟩ }
      dev := fun _ => ⟨fun _ => 7, 256, true, 0, .null⟩ }

/-- What `libread` returns to it. -/
theorem libread_reader : libread reader.caller (0 : BitVec 32).toNat (0 : BitVec 32).toNat =
    some (.ok ((7 : BYTE).signExtend 32), reader.caller) := by
  have harea : HasArea reader.caller.mm := Area.hasArea ⟨rfl, rfl⟩
  apply libread_symbol_ok harea (by decide)
  exact pgGetval_of_present (show PagePresent (pteSetFpn 0 0) by decide) rfl (by decide)

theorem delivered_iff_reader :
    ∃ p', run .zeroed (fun _ _ => none) reader = some (0, p') ∧
      ¬ Delivered reader p' 3 (placeByte reader.caller (readAddr reader ⟨.read, 0, 0, 3, 0⟩))
        reader.caller := by
  obtain ⟨p', hrun, -, -, hiff⟩ := @delivered_iff reader.caller _ .zeroed (fun _ _ => none) reader _
    rfl rfl libread_reader
  refine ⟨p', hrun, fun h => ?_⟩
  exact absurd (hiff.mp h) (by decide)

/-- **A byte that is not delivered**: the `READ` returns 0 and register 3 stays 0. -/
theorem byte_not_delivered :
    libread reader.caller (0 : BitVec 32).toNat (0 : BitVec 32).toNat =
        some (.ok ((7 : BYTE).signExtend 32), reader.caller) ∧
      ∃ p', run .zeroed (fun _ _ => none) reader = some (0, p') ∧ p'.regs 3 = 0 ∧
        ¬ Delivered reader p' 3 7 reader.caller := by
  refine ⟨libread_reader, _, run_read rfl rfl libread_reader, rfl, ?_⟩
  intro hdelivered
  exact absurd hdelivered.register (by decide)

end SimOs.Cpu
