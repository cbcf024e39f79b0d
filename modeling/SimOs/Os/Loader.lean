import SimOs.Lib.Scan
import SimOs.Os.Killall

/-!
# The program loader

`load` reads a program with `fscanf`, token by token, and the operands of `syscall` with
`fgets` and `sscanf`, line by line.  The two stay in step: whatever an instruction leaves
of its line is white space, which the next `%s` skips, and `fgets` starts right behind the
word `syscall`.

What is not assigned keeps what `malloc` or the stack held, which is a parameter.  A use of
an array that was never written is undefined.

## Main definitions

* `getOpcode`, `readIns`, `load`: the functions of `loader.c`.
* `Instr`, `Printed`: a program, and its text.
* `ReadsBack`: what the loader is for.
* `load_printed`: it reads back every program of fewer than 2^32 instructions.
-/

namespace SimOs.Loader

open Scan

/-! ## The loader -/

/-- `OPT_CALC`. -/
def optCalc : List Char := ['c', 'a', 'l', 'c']
/-- `OPT_ALLOC`. -/
def optAlloc : List Char := ['a', 'l', 'l', 'o', 'c']
/-- `OPT_FREE`. -/
def optFree : List Char := ['f', 'r', 'e', 'e']
/-- `OPT_READ`. -/
def optRead : List Char := ['r', 'e', 'a', 'd']
/-- `OPT_WRITE`. -/
def optWrite : List Char := ['w', 'r', 'i', 't', 'e']
/-- `OPT_SYSCALL`. -/
def optSyscall : List Char := ['s', 'y', 's', 'c', 'a', 'l', 'l']

/-- `get_opcode`, or `none` for the call of `exit(1)`. -/
def getOpcode (opt : List Char) : Option InsOpcode :=
  if opt = optCalc then some .calc
  else if opt = optAlloc then some .alloc
  else if opt = optFree then some .free
  else if opt = optRead then some .read
  else if opt = optWrite then some .write
  else if opt = optSyscall then some .syscall
  else none

/-- `PAGE_SIZE` of `common.h`. -/
def pageSize : BitVec 32 := 1024

/-- `sizeof(opcode)`. -/
def sizeofOpcode : ℕ := 10

/-- `sizeof(buf)`. -/
def sizeofBuf : ℕ := 200

/-- `struct code_seg_t`. -/
structure CodeSegT where
  text : List InsT
  size : BitVec 32

/-- What `load` sets of `struct pcb_t`, but for `page_table`. -/
structure Pcb where
  pid : BitVec 32
  bp : BitVec 32
  pc : BitVec 32
  path : List BYTE
  priority : BitVec 32
  code : CodeSegT

/-- What `malloc` finds in the blocks of `load`. -/
structure Fresh where
  priority : BitVec 32
  size : BitVec 32
  text : ℕ → InsT

/-- The file, and the arrays `opcode` and `buf`, as far as they were written. -/
structure Input where
  file : List Char
  opcode : Option (List Char)
  buf : Option (List Char)

/-- `exit` with a code, or a value. -/
abbrev Exits (α : Type) : Type := Except ℕ α

/-- Assign the values of a format to `arg_0`, `arg_1` and so on. -/
def assign (ins : InsT) (vals : List (BitVec 32)) : InsT :=
  { ins with
    arg0 := vals.getD 0 ins.arg0
    arg1 := vals.getD 1 ins.arg1
    arg2 := vals.getD 2 ins.arg2
    arg3 := vals.getD 3 ins.arg3 }

/-- `fscanf(file, fmt, &arg_0, ...)`. -/
def fscanfArgs (fmt : List Directive) (ins : InsT) (inp : Input) : Option (InsT × Input) :=
  (scan 32 fmt inp.file).map fun r => (assign ins r.1, { inp with file := r.2 })

/-- The `switch` of `load`. -/
def readArgs (ins : InsT) (inp : Input) : Option (InsT × Input) :=
  match ins.opcode with
  | .calc => some (ins, inp)
  | .alloc => fscanfArgs [.conv .u, .space, .conv .u, .space] ins inp
  | .free => fscanfArgs [.conv .u, .space] ins inp
  | .read => fscanfArgs [.conv .u, .space, .conv .u, .space, .conv .u, .space] ins inp
  | .write => fscanfArgs [.conv .u, .space, .conv .u, .space, .conv .u, .space] ins inp
  | .syscall =>
      let r := fgets sizeofBuf inp.file
      -- at the end of the file `buf` stays as it was
      (r.1.or inp.buf).bind fun buf =>
        (scan 32 [.conv .d, .conv .d, .conv .d, .conv .d] buf).map fun v =>
          (assign ins v.1, { inp with file := r.2, buf := some buf })

/-- One trip of the loop of `load`, over what `text[i]` held before. -/
def readIns (old : InsT) (inp : Input) : Option (Exits (InsT × Input)) :=
  (word sizeofOpcode inp.file).bind fun r =>
    (r.1.or inp.opcode).bind fun opcode =>
      match getOpcode opcode with
      | none => some (.error 1)
      | some op =>
          (readArgs { old with opcode := op } { inp with file := r.2, opcode := some opcode }).map
            .ok

/-- The loop of `load` with `n` trips to go. -/
def readText (text : ℕ → InsT) : ℕ → ℕ → Input → Option (Exits (List InsT))
  | 0, _, _ => some (.ok [])
  | n + 1, i, inp =>
      (readIns (text i) inp).bind fun r =>
        match r with
        | .error code => some (.error code)
        | .ok (ins, inp) => (readText text n (i + 1) inp).map fun s => s.map fun l => ins :: l

/-- `load`: `files` are the files that `fopen` can open. -/
def load (files : List BYTE → Option (List Char)) (fresh : Fresh) (availPid : BitVec 32)
    (path : List BYTE) : Option (Exits Pcb) :=
  match files path with
  | none => some (.error 1)
  | some file =>
      (scan 32 [.conv .u, .space, .conv .u] file).bind fun r =>
        let size := r.1.getD 1 fresh.size
        (readText fresh.text size.toNat 0 ⟨r.2, none, none⟩).map fun s => s.map fun text =>
          { pid := availPid
            bp := pageSize
            pc := 0
            path := CString.snprintf (2 * Os.sizeofPath + 1) path
            priority := r.1.getD 0 fresh.priority
            code := ⟨text, size⟩ }

/-! ## Programs -/

/-- The number of operands that an instruction can have. -/
def Takes : InsOpcode → ℕ → Prop
  | .calc, n => n = 0
  | .alloc, n => n = 2
  | .free, n => n = 1
  | .read, n => n = 3
  | .write, n => n = 3
  | .syscall, n => 1 ≤ n ∧ n ≤ 4

/-- An instruction with its operands. -/
structure Instr where
  opcode : InsOpcode
  args : List (BitVec 32)
  takes : Takes opcode args.length

/-- The word of an instruction. -/
def opt : InsOpcode → List Char
  | .calc => optCalc
  | .alloc => optAlloc
  | .free => optFree
  | .read => optRead
  | .write => optWrite
  | .syscall => optSyscall

/-- The operands of `syscall` are signed, and those of the others unsigned. -/
def conversion : InsOpcode → Conversion
  | .syscall => .d
  | _ => .u

/-- The operands as they are printed. -/
def Instr.operands (ins : Instr) : List (List Char) :=
  ins.args.map fun v => (conversion ins.opcode).print v

/-- A line: the token `tok`, and then the tokens `toks`. -/
def Line (tok : List Char) (toks : List (List Char)) (s : List Char) : Prop :=
  ∃ rest, s = tok ++ rest ∧ Spaced toks rest ∧ s.length < 200

/-- The lines of the instructions. -/
inductive PrintedText : List Instr → List Char → Prop
  | nil : PrintedText [] []
  | cons {ins : Instr} {inss : List Instr} {s rest : List Char}
      (hline : Line (opt ins.opcode) ins.operands s) (h : PrintedText inss rest) :
      PrintedText (ins :: inss) (s ++ '\n' :: rest)

/-- The text of a program: a line with the priority and the number of instructions, and
then the instructions. -/
def Printed (prio : BitVec 32) (inss : List Instr) (s : List Char) : Prop :=
  ∃ header rest, s = header ++ '\n' :: rest ∧
    Line (Nat.toDigits 10 prio.toNat) [Nat.toDigits 10 inss.length] header ∧
    PrintedText inss rest

/-- The entry of the text has the opcode and the operands that were given. -/
structure Reads (ins : Instr) (t : InsT) : Prop where
  opcode : t.opcode = ins.opcode
  args : ins.args <+: [t.arg0, t.arg1, t.arg2, t.arg3]

/-- The process has the priority and the instructions of the program, with the operands
that were given, and is at its start. -/
structure ReadsBack (prio : BitVec 32) (inss : List Instr) (proc : Pcb) : Prop where
  priority : proc.priority = prio
  size : proc.code.size.toNat = inss.length
  text : List.Forall₂ Reads inss proc.code.text
  pc : proc.pc = 0

/-! ## One instruction -/

theorem isToken_opt (op : InsOpcode) : IsToken (opt op) := by
  have hall : (opt op).all fun c => !isSpace c := by cases op <;> decide
  constructor
  · cases op <;> exact List.cons_ne_nil _ _
  · intro c hc
    simpa using List.all_eq_true.mp hall c hc

theorem getOpcode_opt (op : InsOpcode) : getOpcode (opt op) = some op := by
  cases op <;> decide

theorem length_opt_lt (op : InsOpcode) : (opt op).length < sizeofOpcode := by
  cases op <;> decide

theorem Instr.isToken_operands (ins : Instr) : ∀ tok ∈ ins.operands, IsToken tok := by
  intro tok htok
  obtain ⟨v, -, rfl⟩ := List.mem_map.mp htok
  exact isToken_print (conversion ins.opcode) v

/-- No instruction takes more operands than `inst_t` has. -/
theorem Instr.length_args_le (ins : Instr) : ins.args.length ≤ 4 := by
  obtain ⟨op, args, takes⟩ := ins
  cases op <;> simp only [Takes] at takes ⊢ <;> omega

/-- The operands that are assigned come first. -/
theorem reads_assign (ins : Instr) {t : InsT} (hop : t.opcode = ins.opcode) :
    Reads ins (assign t ins.args) := by
  have hle := ins.length_args_le
  refine ⟨hop, ?_⟩
  match hargs : ins.args with
  | [] => exact List.nil_prefix
  | [a] => exact ⟨[t.arg1, t.arg2, t.arg3], rfl⟩
  | [a, b] => exact ⟨[t.arg2, t.arg3], rfl⟩
  | [a, b, c] => exact ⟨[t.arg3], rfl⟩
  | [a, b, c, d] => exact ⟨[], rfl⟩
  | a :: b :: c :: d :: e :: args =>
      rw [hargs] at hle
      simp only [List.length_cons] at hle
      omega

/-- `fscanf` reads the unsigned operands, and goes on to the next line. -/
theorem fscanfArgs_printed {ins : Instr} (hconv : conversion ins.opcode = .u) (t : InsT)
    {inp : Input} {s tail : List Char} (h : Spaced ins.operands s)
    (hinp : inp.file = s ++ '\n' :: tail) :
    ∃ inp', fscanfArgs (spacedFormat .u ins.args.length) t inp = some (assign t ins.args, inp') ∧
      skip inp'.file = skip tail := by
  rw [Instr.operands, hconv] at h
  obtain ⟨r, hr, hskip⟩ := scan_spacedFormat .u ins.args h (congrArg skip hinp)
  refine ⟨{ inp with file := r }, ?_, hskip⟩
  rw [fscanfArgs, hr]
  rfl

/-- `fgets` takes the rest of the line, and `sscanf` reads the signed operands from it. -/
theorem readArgs_syscall {ins : Instr} (hop : ins.opcode = .syscall) {t : InsT}
    (ht : t.opcode = .syscall) {inp : Input} {s tail : List Char} (h : Spaced ins.operands s)
    (hlen : s.length + 1 < sizeofBuf) (hinp : inp.file = s ++ '\n' :: tail) :
    ∃ inp', readArgs t inp = some (assign t ins.args, inp') ∧ inp'.file = tail := by
  have hline := fgets_line (h.no_newline ins.isToken_operands) hlen tail
  rw [Instr.operands, hop] at h
  obtain ⟨r, hr⟩ := scan_replicate .d ins.args ins.length_args_le h rfl
  refine ⟨{ inp with file := tail, buf := some (s ++ ['\n']) }, ?_, rfl⟩
  simp only [readArgs, ht, hinp, hline, Option.some_or, Option.bind_some]
  exact congrArg _ hr

/-- The formats of `fscanf` have white space behind each conversion. -/
theorem readArgs_unsigned {op : InsOpcode} {n : ℕ} (htakes : Takes op n) (hcalc : op ≠ .calc)
    (hsyscall : op ≠ .syscall) {t : InsT} (ht : t.opcode = op) (inp : Input) :
    readArgs t inp = fscanfArgs (spacedFormat .u n) t inp := by
  rw [readArgs, ht]
  match op with
  | .calc => exact absurd rfl hcalc
  | .alloc => obtain rfl : n = 2 := htakes; rfl
  | .free => obtain rfl : n = 1 := htakes; rfl
  | .read => obtain rfl : n = 3 := htakes; rfl
  | .write => obtain rfl : n = 3 := htakes; rfl
  | .syscall => exact absurd rfl hsyscall

/-- **The `switch`** reads the operands of a line, and leaves the next line. -/
theorem readArgs_printed (ins : Instr) {t : InsT} (ht : t.opcode = ins.opcode) {inp : Input}
    {s tail : List Char} (h : Spaced ins.operands s) (hlen : (opt ins.opcode ++ s).length < 200)
    (hinp : inp.file = s ++ '\n' :: tail) :
    ∃ inp', readArgs t inp = some (assign t ins.args, inp') ∧ skip inp'.file = skip tail := by
  have htakes := ins.takes
  by_cases hsyscall : ins.opcode = .syscall
  · rw [hsyscall] at ht hlen
    have hroom : s.length + 1 < sizeofBuf := by
      have hopt : (opt .syscall).length = 7 := rfl
      rw [List.length_append, hopt] at hlen
      rw [sizeofBuf]
      omega
    obtain ⟨inp', hr, hfile⟩ := readArgs_syscall hsyscall ht h hroom hinp
    exact ⟨inp', hr, by rw [hfile]⟩
  · by_cases hcalc : ins.opcode = .calc
    · rw [hcalc] at htakes ht
      have hnil : ins.args = [] := List.length_eq_zero_iff.mp htakes
      rw [Instr.operands, hnil] at h
      cases h with
      | done hblank =>
          refine ⟨inp, ?_, by rw [hinp, skip_line hblank]⟩
          rw [readArgs, ht, hnil]
          rfl
    · have hconv : conversion ins.opcode = .u := by
        unfold conversion
        split
        · next heq => exact absurd heq hsyscall
        · rfl
      rw [readArgs_unsigned htakes hcalc hsyscall ht]
      exact fscanfArgs_printed hconv t h hinp

/-- **One trip** reads the instruction of a line.  All that matters of what came before is
that only white space was left of it. -/
theorem readIns_printed (ins : Instr) (old : InsT) {inp : Input} {s tail : List Char}
    (hline : Line (opt ins.opcode) ins.operands s)
    (hinp : skip inp.file = skip (s ++ '\n' :: tail)) :
    ∃ t inp', readIns old inp = some (.ok (t, inp')) ∧ Reads ins t ∧
      skip inp'.file = skip tail := by
  obtain ⟨rest, rfl, hspaced, hlen⟩ := hline
  have hword : word sizeofOpcode inp.file =
      some (some (opt ins.opcode), rest ++ '\n' :: tail) := by
    rw [word_congr hinp, List.append_assoc]
    exact word_token (isToken_opt ins.opcode) (length_opt_lt ins.opcode) (hspaced.apart tail)
  have hbehind : (Input.mk (rest ++ '\n' :: tail) (some (opt ins.opcode)) inp.buf).file =
      rest ++ '\n' :: tail := rfl
  obtain ⟨inp', hargs, hskip⟩ :=
    readArgs_printed ins (t := { old with opcode := ins.opcode }) rfl hspaced hlen hbehind
  refine ⟨_, inp', ?_, reads_assign ins (t := { old with opcode := ins.opcode }) rfl, hskip⟩
  simp only [readIns, hword, Option.bind_some, Option.some_or, getOpcode_opt, hargs,
    Option.map_some]

/-! ## A program -/

/-- **The loop** reads the instructions line by line. -/
theorem readText_printed {inss : List Instr} {s : List Char} (h : PrintedText inss s)
    (text : ℕ → InsT) (i : ℕ) {inp : Input} (hinp : skip inp.file = skip s) :
    ∃ l, readText text inss.length i inp = some (.ok l) ∧ List.Forall₂ Reads inss l := by
  induction h generalizing i inp with
  | nil => exact ⟨[], rfl, .nil⟩
  | @cons ins inss s rest hline h ih =>
      obtain ⟨t, inp', hone, hreads, hskip⟩ := readIns_printed ins (text i) hline hinp
      obtain ⟨l, hrest, hall⟩ := ih (i + 1) hskip
      refine ⟨t :: l, ?_, .cons hreads hall⟩
      rw [List.length_cons, readText, hone]
      simp only [Option.bind_some, hrest, Option.map_some]
      rfl

/-- **The header** gives the priority and the number of instructions, if it fits into an
`unsigned`. -/
theorem scan_header {prio : BitVec 32} {n : ℕ} (hn : n < 2 ^ 32) {header : List Char}
    (h : Line (Nat.toDigits 10 prio.toNat) [Nat.toDigits 10 n] header) (rest : List Char) :
    ∃ r, scan 32 [.conv .u, .space, .conv .u] (header ++ '\n' :: rest) =
      some ([prio, BitVec.ofNat 32 n], r) ∧ skip r = skip rest := by
  have hprint : Nat.toDigits 10 n = Conversion.u.print (BitVec.ofNat 32 n) := by
    rw [Conversion.print, BitVec.toNat_ofNat, Nat.mod_eq_of_lt hn]
  obtain ⟨s, rfl, hspaced, -⟩ := h
  have hfirst : skip (Nat.toDigits 10 prio.toNat ++ s ++ '\n' :: rest) =
      Conversion.u.print prio ++ (s ++ '\n' :: rest) := by
    rw [List.append_assoc, (isToken_toDigits prio.toNat).skip_append]
    rfl
  rw [scan_print .u prio _ hfirst (hspaced.apart rest), scan]
  cases hspaced with
  | @token gap tok trail toks hne hgap hdone =>
      rw [hprint]
      have hsecond : skip (skip (gap ++ (Conversion.u.print (BitVec.ofNat 32 n) ++ trail) ++
          '\n' :: rest)) = Conversion.u.print (BitVec.ofNat 32 n) ++ (trail ++ '\n' :: rest) := by
        rw [skip_skip, List.append_assoc, List.append_assoc, skip_gap hgap (isToken_print _ _)]
      rw [scan_print .u _ [] hsecond (hdone.apart rest)]
      refine ⟨trail ++ '\n' :: rest, rfl, ?_⟩
      cases hdone with
      | done hblank => exact skip_line hblank rest

/-- **The loader reads back every program** of fewer than 2^32 instructions: from every
printing of it, and whatever `malloc` finds, the process has the same priority, the same
instructions in the same order and the operands that were given, and starts at 0. -/
theorem load_printed {files : List BYTE → Option (List Char)} {path : List BYTE}
    {s : List Char} {prio : BitVec 32} {inss : List Instr} (hfile : files path = some s)
    (hprinted : Printed prio inss s) (hsize : inss.length < 2 ^ 32) (fresh : Fresh)
    (availPid : BitVec 32) :
    ∃ proc, load files fresh availPid path = some (.ok proc) ∧ ReadsBack prio inss proc := by
  obtain ⟨header, rest, rfl, hheader, htext⟩ := hprinted
  obtain ⟨r, hscan, hskip⟩ := scan_header hsize hheader rest
  have hcount : (BitVec.ofNat 32 inss.length).toNat = inss.length := by
    rw [BitVec.toNat_ofNat, Nat.mod_eq_of_lt hsize]
  have hstart : skip (Input.mk r none none).file = skip rest := hskip
  obtain ⟨l, hl, hall⟩ := readText_printed htext fresh.text 0 hstart
  let proc : Pcb :=
    { pid := availPid
      bp := pageSize
      pc := 0
      path := CString.snprintf (2 * Os.sizeofPath + 1) path
      priority := prio
      code := ⟨l, BitVec.ofNat 32 inss.length⟩ }
  have hload : load files fresh availPid path = some (.ok proc) := by
    rw [load, hfile]
    simp only [hscan, Option.bind_some, List.getD_cons_succ, List.getD_cons_zero, hcount, hl,
      Option.map_some]
    rfl
  exact ⟨proc, hload, ⟨rfl, hcount, hall, rfl⟩⟩

/-- **What `killall` sees** of a process that was loaded. -/
theorem load_pcb {files : List BYTE → Option (List Char)} {fresh : Fresh} {availPid : BitVec 32}
    {path : List BYTE} {proc : Pcb} (h : load files fresh availPid path = some (.ok proc)) :
    Os.load path proc.code.text = ⟨proc.path, proc.code.text, proc.pc.toNat⟩ := by
  rw [load] at h
  split at h
  · cases h
  · obtain ⟨r, -, htext⟩ := Option.bind_eq_some_iff.mp h
    obtain ⟨l, -, hl⟩ := Option.map_eq_some_iff.mp htext
    cases l with
    | error code => cases hl
    | ok l =>
        cases hl
        rfl

/-! ## Plain text -/

/-- The text with one blank between the tokens. -/
def programText (prio : BitVec 32) (inss : List Instr) : List Char :=
  Nat.toDigits 10 prio.toNat ++ join [Nat.toDigits 10 inss.length] ++ '\n' ::
    inss.flatMap fun ins => opt ins.opcode ++ join ins.operands ++ ['\n']

/-- The line of an instruction is short enough. -/
theorem line_plain (ins : Instr) :
    Line (opt ins.opcode) ins.operands (opt ins.opcode ++ join ins.operands) := by
  refine ⟨join ins.operands, rfl, spaced_join _, ?_⟩
  have hopt := length_opt_lt ins.opcode
  have hargs := ins.length_args_le
  have hjoin : (join ins.operands).length ≤ ins.operands.length * (11 + 1) := by
    apply length_join_le
    intro tok htok
    obtain ⟨v, -, rfl⟩ := List.mem_map.mp htok
    exact length_print_le _ v
  rw [Instr.operands, List.length_map] at hjoin
  rw [sizeofOpcode] at hopt
  rw [List.length_append, Instr.operands]
  omega

/-- **Every program has a text**, unless the number of its instructions has too many digits
for a line. -/
theorem printed_programText (prio : BitVec 32) {inss : List Instr}
    (hsize : inss.length < 10 ^ 100) : Printed prio inss (programText prio inss) := by
  refine ⟨_, _, rfl, ⟨join [Nat.toDigits 10 inss.length], rfl, spaced_join _, ?_⟩, ?_⟩
  · have hprio := length_print_le .u prio
    have hdigits := (Nat.length_toDigits_le_iff (by decide) (by decide)).mpr hsize
    simp only [Conversion.print] at hprio
    simp only [join, List.flatMap_cons, List.flatMap_nil, List.length_append, List.length_cons,
      List.length_nil]
    omega
  · clear hsize
    induction inss with
    | nil => exact .nil
    | cons ins inss ih =>
        have hcons := PrintedText.cons (line_plain ins) ih
        simpa using hcons

/-- `write 112 1 0` after `alloc 200 1`, and then `syscall 101 1`. -/
def smallProgram : List Instr :=
  [⟨.alloc, [200, 1], rfl⟩, ⟨.write, [112, 1, 0], rfl⟩, ⟨.syscall, [101, 1], by decide, by decide⟩]

/-- Blocks that were in use before. -/
def leftovers : Fresh := ⟨7, 9, fun _ => ⟨.free, 5, 6, 7, 8⟩⟩

theorem load_printed_small :
    ∃ proc, load (fun _ => some (programText 20 smallProgram)) leftovers 1 [] =
      some (.ok proc) ∧ ReadsBack 20 smallProgram proc :=
  load_printed rfl (printed_programText 20 (by decide)) (by decide) leftovers 1

/-- A program of `n` times `calc`. -/
def calcs (n : ℕ) : List Instr := List.replicate n ⟨.calc, [], rfl⟩

@[simp] theorem length_calcs (n : ℕ) : (calcs n).length = n := List.length_replicate

/-- **2^32 instructions** are too many for `size`, which is an `uint32_t`. -/
theorem too_many_instructions :
    Printed 20 (calcs (2 ^ 32)) (programText 20 (calcs (2 ^ 32))) ∧
      ∀ fresh availPid path, ¬ ∃ proc,
        load (fun _ => some (programText 20 (calcs (2 ^ 32)))) fresh availPid path =
          some (.ok proc) ∧ ReadsBack 20 (calcs (2 ^ 32)) proc := by
  have hlength : (calcs (2 ^ 32)).length = 2 ^ 32 := length_calcs _
  refine ⟨printed_programText 20 (by rw [hlength]; omega), ?_⟩
  intro fresh availPid path hread
  obtain ⟨proc, -, hback⟩ := hread
  have hsize := hback.size
  rw [hlength] at hsize
  have hlt := proc.code.size.isLt
  omega

end SimOs.Loader
