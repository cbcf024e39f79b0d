import SimOs.Lib.Rows
import SimOs.Os.Loader

/-!
# The configuration file

`read_config` reads the system parameters, then perhaps the sizes of the devices, and then a
line for each process.  It decides whether there are sizes by whether the next line has a
letter, reads them with `fscanf` from where this line began, and skips one character with
`fgetc`.  So the line of the sizes has to end right behind its last number, and without such
a line the first process needs a name with a letter.

What is not assigned keeps what `malloc` found, which is a parameter.  A name or a path that does
not fit into its array is undefined.

## Main definitions

* `readConfig`: `read_config`.
* `SimConfig`, `Printed`: a configuration, and its text.
* `readConfig_printed`: it reads back every configuration.
-/

namespace SimOs.Os.ReadConfig

open Scan SimOs.Loader

/-! ## The reader -/

/-- `sizeof(buffer)`. -/
def sizeofBuffer : ℕ := 256

/-- `sizeof(proc)`. -/
def sizeofProc : ℕ := 100

/-- The size of a block `ld_processes.path[i]`. -/
def pathSize : ℕ := 100

/-- `PAGING_MAX_MMSWP`. -/
def pagingMaxMmswp : ℕ := 4

/-- The bytes of a string. -/
def bytes (s : List Char) : List BYTE := s.map fun c => BitVec.ofNat 8 c.toNat

/-- The entries of `ld_processes` for one process. -/
structure LdArgs where
  path : List BYTE
  startTime : BitVec 64
  prio : BitVec 64

/-- What `read_config` sets. -/
structure OsConfig where
  timeSlot : BitVec 32
  numCpus : BitVec 32
  numProcesses : BitVec 32
  memramsz : BitVec 32
  memswpsz : List (BitVec 32)
  ldProcesses : List LdArgs

/-- `fscanf(file, "%d", &var)`, over what `var` held before. -/
def fscanfInt (old : BitVec 32) (file : List Char) : Option (BitVec 32 × List Char) :=
  (scan 32 [.conv .d] file).map fun r => (r.1.headD old, r.2)

/-- The loop that reads `memswpsz`. -/
def readSwpsz : ℕ → List Char → Option (List (BitVec 32) × List Char)
  | 0, file => some ([], file)
  | n + 1, file =>
      (fscanfInt 0 file).bind fun r => (readSwpsz n r.2).map fun q => (r.1 :: q.1, q.2)

/-- The sizes, and what is behind them.  Without them the variables are 0, as all globals. -/
def readSizes (isMemConfig : Bool) (file : List Char) :
    Option (BitVec 32 × List (BitVec 32) × List Char) :=
  if isMemConfig then
    (fscanfInt 0 file).bind fun r => (readSwpsz pagingMaxMmswp r.2).map fun q =>
      -- `fgetc`
      (r.1, q.1, q.2.tail)
  else some (0, List.replicate pagingMaxMmswp 0, file)

/-- `sscanf(buffer, "%lu %s %lu", ...)` and what follows, over what the block of `start_time`
and of `prio` held before. -/
def readProcess (old : LdArgs) (buffer : List Char) : Option LdArgs :=
  let unnamed := readConfigPath (bytes [])
  (scan 64 [.conv .u, .space] buffer).bind fun r =>
    match r.1 with
    | [] => some { old with path := unnamed }
    | startTime :: _ => (word sizeofProc r.2).bind fun q =>
        match q.1 with
        | none => some { old with path := unnamed, startTime := startTime }
        | some proc => (scan 64 [.space, .conv .u] q.2).bind fun t =>
            match t.1 with
            | [] => some { old with path := unnamed, startTime := startTime }
            | prio :: _ =>
                if (readConfigPath (bytes proc)).length < pathSize then
                  some ⟨readConfigPath (bytes proc), startTime, prio⟩
                else none

/-- The loop over the processes, with `n` to go. -/
def readProcesses (fresh : ℕ → LdArgs) : ℕ → ℕ → List Char → Option (Exits (List LdArgs))
  | 0, _, _ => some (.ok [])
  | n + 1, i, file =>
      let r := fgets sizeofBuffer file
      match r.1 with
      | none => some (.error 1)
      | some buffer => (readProcess (fresh i) buffer).bind fun p =>
          (readProcesses fresh n (i + 1) r.2).map fun s => s.map fun ps => p :: ps

/-- `read_config`, of a file that can be opened. -/
def readConfig (fresh : ℕ → LdArgs) (file : List Char) : Option (Exits OsConfig) :=
  let r := fgets sizeofBuffer file
  match r.1 with
  | none => some (.error 1)
  | some buffer =>
      (scan 32 [.conv .d, .space, .conv .d, .space, .conv .d] buffer).bind fun v =>
        match v.1 with
        | [timeSlot, numCpus, numProcesses] =>
            -- the position is restored afterwards
            match (fgets sizeofBuffer r.2).1 with
            | none => some (.error 1)
            | some line => (readSizes (!line.any Char.isAlpha) r.2).bind fun m =>
                (readProcesses fresh numProcesses.toInt.toNat 0 m.2.2).map fun s =>
                  s.map fun ps => ⟨timeSlot, numCpus, numProcesses, m.1, m.2.1, ps⟩
        | _ => some (.error 1)

/-! ## Configurations -/

/-- A process of a configuration, with a name that fits into the path. -/
structure ProcConfig where
  startTime : BitVec 64
  name : List Char
  prio : BitVec 64
  isToken : IsToken name
  short : name.length < 89

/-- The sizes of the devices. -/
structure Sizes where
  memramsz : BitVec 32
  memswpsz : List (BitVec 32)
  length_eq : memswpsz.length = pagingMaxMmswp

/-- A configuration.  The sizes may be left out if the first process has a letter in its name. -/
structure SimConfig where
  timeSlot : BitVec 32
  numCpus : BitVec 32
  sizes : Option Sizes
  procs : List ProcConfig
  few : procs.length < 2 ^ 31
  named : sizes = none → ∃ p ∈ procs.head?, p.name.any Char.isAlpha

/-- The tokens of the first line. -/
def SimConfig.header (c : SimConfig) : List (List Char) :=
  [Conversion.d.print c.timeSlot, Conversion.d.print c.numCpus,
    Conversion.d.print (BitVec.ofNat 32 c.procs.length)]

/-- The tokens of the line of the sizes. -/
def Sizes.tokens (m : Sizes) : List (List Char) :=
  (m.memramsz :: m.memswpsz).map Conversion.d.print

/-- The tokens of the line of a process. -/
def ProcConfig.tokens (p : ProcConfig) : List (List Char) :=
  [Conversion.u.print p.startTime, p.name, Conversion.u.print p.prio]

/-- The lines of the processes.  What stands behind them is not read, and the last of them may
end with the file. -/
inductive PrintedProcs : List ProcConfig → List Char → Prop
  | nil (rest : List Char) : PrintedProcs [] rest
  | cons {p : ProcConfig} {ps : List ProcConfig} {s rest : List Char}
      (hrow : Row sizeofBuffer p.tokens s) (h : PrintedProcs ps rest) :
      PrintedProcs (p :: ps) (s ++ '\n' :: rest)
  | last {p : ProcConfig} {s : List Char} (hrow : Row sizeofBuffer p.tokens s) :
      PrintedProcs [p] s

/-- No blank stands at the end of the line. -/
def Trimmed (s : List Char) : Prop := ∀ c ∈ s.getLast?, ¬ isBlank c

/-- The line of the sizes, if there are any, and the lines of the processes. -/
def PrintedRest (ps : List ProcConfig) (s : List Char) : Option Sizes → Prop
  | none => PrintedProcs ps s
  | some m => ∃ line rest, s = line ++ '\n' :: rest ∧ Row sizeofBuffer m.tokens line ∧
      Trimmed line ∧ PrintedProcs ps rest

/-- The text of a configuration. -/
def Printed (c : SimConfig) (s : List Char) : Prop :=
  ∃ line rest, s = line ++ '\n' :: rest ∧ Row sizeofBuffer c.header line ∧
    PrintedRest c.procs rest c.sizes

/-- The entries of `ld_processes` for a process. -/
def ProcConfig.ldArgs (p : ProcConfig) : LdArgs :=
  ⟨readConfigPath (bytes p.name), p.startTime, p.prio⟩

/-- What `read_config` is to set. -/
def SimConfig.osConfig (c : SimConfig) : OsConfig where
  timeSlot := c.timeSlot
  numCpus := c.numCpus
  numProcesses := BitVec.ofNat 32 c.procs.length
  memramsz := (c.sizes.map Sizes.memramsz).getD 0
  memswpsz := (c.sizes.map Sizes.memswpsz).getD (List.replicate pagingMaxMmswp 0)
  ldProcesses := c.procs.map ProcConfig.ldArgs

/-! ## The lines -/

theorem apart_newline (rest : List Char) : Apart ('\n' :: rest) := by
  intro c hc
  obtain rfl := Option.some.inj hc
  decide

theorem ProcConfig.isToken_tokens (p : ProcConfig) : ∀ tok ∈ p.tokens, IsToken tok := by
  intro tok htok
  simp only [ProcConfig.tokens, List.mem_cons, List.not_mem_nil, or_false] at htok
  rcases htok with rfl | rfl | rfl
  · exact isToken_print .u p.startTime
  · exact p.isToken
  · exact isToken_print .u p.prio

theorem SimConfig.isToken_header (c : SimConfig) : ∀ tok ∈ c.header, IsToken tok := by
  intro tok htok
  simp only [SimConfig.header, List.mem_cons, List.not_mem_nil, or_false] at htok
  rcases htok with rfl | rfl | rfl <;> exact isToken_print .d _

theorem Sizes.isToken_tokens (m : Sizes) : ∀ tok ∈ m.tokens, IsToken tok := by
  intro tok htok
  obtain ⟨v, -, rfl⟩ := List.mem_map.mp htok
  exact isToken_print .d v

/-- **The line of a process**, with its newline or at the end of the file. -/
theorem readProcess_row (old : LdArgs) {p : ProcConfig} {s e : List Char}
    (hrow : Row sizeofBuffer p.tokens s) (he : Apart e) :
    readProcess old (s ++ e) = some p.ldArgs := by
  obtain ⟨-, rest₁, -, h₁, hscan₁⟩ :=
    scan_token .u p.startTime [.space] he hrow.spaced (skip_blank (s ++ e)).symm
  obtain ⟨rest₂, h₂, hword⟩ :=
    word_next p.isToken (p.short.trans (by decide : 89 < sizeofProc)) he h₁ (skip_skip (rest₁ ++ e))
  obtain ⟨-, rest₃, -, h₃, hscan₃⟩ :=
    scan_token .u p.prio [] he h₂ (skip_skip (rest₂ ++ e))
  have hpath : (readConfigPath (bytes p.name)).length < pathSize := by
    have hshort := p.short
    simp only [readConfigPath, bytes, List.length_append, List.length_map, pathSize]
    have hproc : inputProc.length = 11 := rfl
    omega
  have hstart : scan 64 [.conv .u, .space] (s ++ e) =
      some ([p.startTime], skip (rest₁ ++ e)) := hscan₁
  have hprio : scan 64 [.space, .conv .u] (rest₂ ++ e) = some ([p.prio], rest₃ ++ e) := hscan₃
  simp only [readProcess, hstart, Option.bind_some, hword, hprio, if_pos hpath]
  rfl

/-- **The loop** reads the processes line by line. -/
theorem readProcesses_printed {ps : List ProcConfig} {s : List Char} (h : PrintedProcs ps s)
    (fresh : ℕ → LdArgs) (i : ℕ) :
    readProcesses fresh ps.length i s = some (.ok (ps.map ProcConfig.ldArgs)) := by
  induction h generalizing i with
  | nil rest => rfl
  | @cons p ps s rest hrow h ih =>
      rw [List.length_cons, readProcesses, hrow.fgets p.isToken_tokens rest]
      simp only [readProcess_row _ hrow (apart_newline []), Option.bind_some, ih (i + 1),
        Option.map_some]
      rfl
  | @last p s hrow =>
      have he : Apart [] := fun c hc => by cases hc
      have hone := readProcess_row (fresh i) hrow he
      rw [List.append_nil] at hone
      rw [List.length_singleton, readProcesses, hrow.fgets_last p.isToken_tokens]
      simp only [hone, Option.bind_some, readProcesses, Option.map_some]
      rfl

/-! ## The line of the sizes -/

/-- The loop takes the numbers of a line. -/
theorem readSwpsz_spaced (vs : List (BitVec 32)) {s e : List Char} (he : Apart e)
    (h : Spaced (vs.map Conversion.d.print) s) :
    ∃ pre rest, s = pre ++ rest ∧ Blanks rest ∧
      readSwpsz vs.length (s ++ e) = some (vs, rest ++ e) := by
  induction vs generalizing s with
  | nil =>
      cases h with
      | done hblank => exact ⟨[], s, rfl, hblank, rfl⟩
  | cons v vs ih =>
      obtain ⟨gap, rest, rfl, hrest, hscan⟩ := scan_token .d v [] he h rfl
      obtain ⟨pre, rest', rfl, hblank, hread⟩ := ih hrest
      refine ⟨gap ++ (Conversion.d.print v ++ pre), rest', by simp, hblank, ?_⟩
      have hone : fscanfInt 0 (gap ++ (Conversion.d.print v ++ (pre ++ rest')) ++ e) =
          some (v, pre ++ rest' ++ e) := by
        rw [fscanfInt, hscan]
        rfl
      rw [List.length_cons, readSwpsz, hone]
      simp only [Option.bind_some, hread, Option.map_some]

/-- A line that is trimmed has no blanks left. -/
theorem Trimmed.rest_nil {s pre rest : List Char} (h : Trimmed s) (hne : s ≠ [])
    (hs : ' ' :: s = pre ++ rest) (hblank : Blanks rest) : rest = [] := by
  by_contra hrest
  have hlast : s.getLast? = rest.getLast? := by
    have heq := congrArg List.getLast? hs
    rwa [List.getLast?_append_of_ne_nil _ hrest, List.getLast?_cons_of_ne_nil hne] at heq
  have hmem : rest.getLast hrest ∈ s.getLast? := by
    rw [hlast, List.getLast?_eq_some_getLast hrest]
    exact rfl
  exact h _ hmem (hblank _ (List.getLast_mem hrest))

/-- **The sizes** are read from their line, and its newline is skipped. -/
theorem readSizes_row {m : Sizes} {line : List Char} (hrow : Row sizeofBuffer m.tokens line)
    (htrim : Trimmed line) (rest : List Char) :
    readSizes true (line ++ '\n' :: rest) = some (m.memramsz, m.memswpsz, rest) := by
  have hne := hrow.ne_nil (m.isToken_tokens _ List.mem_cons_self)
  have he := apart_newline rest
  obtain ⟨gap, rest₁, hgap, h₁, hscan⟩ := scan_token .d m.memramsz [] he hrow.spaced
    (skip_blank (line ++ '\n' :: rest)).symm
  obtain ⟨pre, rest₂, rfl, hblank, hread⟩ := readSwpsz_spaced m.memswpsz he h₁
  have hsuffix : ' ' :: line = gap ++ (Conversion.d.print m.memramsz ++ pre) ++ rest₂ := by
    rw [hgap]
    simp
  have hend := htrim.rest_nil hne hsuffix hblank
  have hone : fscanfInt 0 (line ++ '\n' :: rest) =
      some (m.memramsz, pre ++ rest₂ ++ '\n' :: rest) := by
    rw [fscanfInt, hscan]
    rfl
  rw [m.length_eq] at hread
  rw [readSizes, if_pos rfl, hone]
  simp only [Option.bind_some, hread, Option.map_some]
  rw [hend]
  rfl

/-- No letter is printed for a number. -/
theorem not_isAlpha_print {v : BitVec 32} {c : Char} (hc : c ∈ Conversion.d.print v) :
    ¬ c.isAlpha := by
  have hdigit : ∀ n : ℕ, c ∈ Nat.toDigits 10 n → ¬ c.isAlpha := by
    intro n hmem
    have hrange := toNat_of_isDigit (Nat.isDigit_of_mem_toDigits (by decide) (by decide) hmem)
    have hupper : 'A'.val.toNat = 65 := rfl
    have hlower : 'a'.val.toNat = 97 := rfl
    have hval : c.val.toNat = c.toNat := rfl
    have halpha : c.isAlpha = (decide ('A'.val ≤ c.val ∧ c.val ≤ 'Z'.val) ||
        decide ('a'.val ≤ c.val) && decide (c.val ≤ 'z'.val)) := rfl
    simp only [halpha, Bool.or_eq_true, Bool.and_eq_true, decide_eq_true_eq,
      UInt32.le_iff_toNat_le]
    omega
  rw [Conversion.print] at hc
  split at hc
  · rcases List.mem_cons.mp hc with rfl | hc
    · decide
    · exact hdigit _ hc
  · exact hdigit _ hc

/-- **The line of the sizes** has no letter. -/
theorem not_any_isAlpha {m : Sizes} {line : List Char}
    (hrow : Row sizeofBuffer m.tokens line) : (line ++ ['\n']).any Char.isAlpha = false := by
  rw [List.any_eq_false]
  intro c hc
  rcases List.mem_append.mp hc with hc | hc
  · rcases hrow.spaced.mem c (List.mem_cons_of_mem ' ' hc) with hblank | ⟨tok, htok, hmem⟩
    · rw [isBlank, Bool.or_eq_true, decide_eq_true_eq, decide_eq_true_eq] at hblank
      rcases hblank with rfl | rfl <;> decide
    · obtain ⟨v, -, rfl⟩ := List.mem_map.mp htok
      exact not_isAlpha_print hmem
  · rw [List.mem_singleton.mp hc]
    decide

/-- **The line of a process** has one if its name has. -/
theorem any_isAlpha {p : ProcConfig} {s : List Char} (hrow : Row sizeofBuffer p.tokens s)
    (hname : p.name.any Char.isAlpha) (e : List Char) : (s ++ e).any Char.isAlpha := by
  obtain ⟨c, hc, halpha⟩ := List.any_eq_true.mp hname
  have htok : p.name ∈ p.tokens := by simp [ProcConfig.tokens]
  have hmem := hrow.spaced.subset htok hc
  rcases List.mem_cons.mp hmem with rfl | hmem
  · exact absurd halpha (by decide)
  · exact List.any_eq_true.mpr ⟨c, List.mem_append_left e hmem, halpha⟩

/-- The line of the first process is there. -/
theorem PrintedProcs.fgets_named {ps : List ProcConfig} {s : List Char} (h : PrintedProcs ps s)
    {p : ProcConfig} (hp : p ∈ ps.head?) (hname : p.name.any Char.isAlpha) :
    ∃ line, (fgets sizeofBuffer s).1 = some line ∧ line.any Char.isAlpha := by
  cases h with
  | nil rest => cases hp
  | @cons p' ps s rest hrow h =>
      obtain rfl := Option.some.inj hp
      refine ⟨s ++ ['\n'], ?_, any_isAlpha hrow hname ['\n']⟩
      rw [hrow.fgets p'.isToken_tokens rest]
  | @last p' s hrow =>
      obtain rfl := Option.some.inj hp
      have halpha := any_isAlpha hrow hname []
      rw [List.append_nil] at halpha
      refine ⟨s, ?_, halpha⟩
      rw [hrow.fgets_last p'.isToken_tokens]

/-- **Whether there are sizes** is seen from the next line. -/
theorem readSizes_printed (c : SimConfig) {s : List Char} (h : PrintedRest c.procs s c.sizes) :
    ∃ line rest, (fgets sizeofBuffer s).1 = some line ∧ PrintedProcs c.procs rest ∧
      readSizes (!line.any Char.isAlpha) s =
        some (c.osConfig.memramsz, c.osConfig.memswpsz, rest) := by
  cases hsizes : c.sizes with
  | some m =>
      rw [hsizes] at h
      obtain ⟨line, rest, rfl, hrow, htrim, hprocs⟩ := h
      refine ⟨line ++ ['\n'], rest, ?_, hprocs, ?_⟩
      · rw [hrow.fgets m.isToken_tokens rest]
      · rw [not_any_isAlpha hrow, Bool.not_false, readSizes_row hrow htrim rest]
        simp [SimConfig.osConfig, hsizes]
  | none =>
      rw [hsizes] at h
      obtain ⟨p, hp, hname⟩ := c.named hsizes
      have hnone : ∀ line : List Char, line.any Char.isAlpha →
          readSizes (!line.any Char.isAlpha) s =
            some (c.osConfig.memramsz, c.osConfig.memswpsz, s) := by
        intro line hline
        rw [hline, Bool.not_true, readSizes]
        simp [SimConfig.osConfig, hsizes]
      have hprocs : PrintedProcs c.procs s := h
      obtain ⟨line, hfgets, halpha⟩ := hprocs.fgets_named hp hname
      exact ⟨line, s, hfgets, hprocs, hnone line halpha⟩

/-! ## The file -/

/-- **The first line.** -/
theorem scan_header {c : SimConfig} {line : List Char}
    (hrow : Row sizeofBuffer c.header line) :
    ∃ r, scan 32 [.conv .d, .space, .conv .d, .space, .conv .d] (line ++ ['\n']) =
      some ([c.timeSlot, c.numCpus, BitVec.ofNat 32 c.procs.length], r) := by
  have he := apart_newline []
  obtain ⟨-, rest₁, -, h₁, hscan₁⟩ := scan_token .d c.timeSlot
    [.space, .conv .d, .space, .conv .d] he hrow.spaced (skip_blank (line ++ ['\n'])).symm
  obtain ⟨-, rest₂, -, h₂, hscan₂⟩ := scan_token .d c.numCpus [.space, .conv .d] he h₁
    (skip_skip (rest₁ ++ ['\n']))
  obtain ⟨-, rest₃, -, h₃, hscan₃⟩ := scan_token .d (BitVec.ofNat 32 c.procs.length) [] he h₂
    (skip_skip (rest₂ ++ ['\n']))
  refine ⟨rest₃ ++ ['\n'], ?_⟩
  rw [hscan₁, scan, hscan₂, scan, hscan₃]
  rfl

/-- **The whole file.** -/
theorem readConfig_eq {c : SimConfig} {s : List Char} (h : Printed c s) (fresh : ℕ → LdArgs) :
    readConfig fresh s = some (.ok c.osConfig) := by
  obtain ⟨line, rest, rfl, hrow, hrest⟩ := h
  obtain ⟨r, hscan⟩ := scan_header hrow
  obtain ⟨next, procs, hfgets, hprocs, hsizes⟩ := readSizes_printed c hrest
  have hcount : (BitVec.ofNat 32 c.procs.length).toInt.toNat = c.procs.length := by
    have hfew := c.few
    rw [BitVec.toInt_eq_toNat_of_lt]
    · rw [BitVec.toNat_ofNat, Nat.mod_eq_of_lt (by omega)]
      rfl
    · rw [BitVec.toNat_ofNat, Nat.mod_eq_of_lt (by omega)]
      omega
  rw [readConfig, hrow.fgets c.isToken_header rest]
  simp only [hscan, Option.bind_some, hfgets, hsizes, hcount,
    readProcesses_printed hprocs fresh 0, Option.map_some]
  rfl

/-! ## Plain text -/

/-- A row with one blank between the tokens. -/
def row (toks : List (List Char)) : List Char := (join toks).tail

theorem cons_row {toks : List (List Char)} (hne : toks ≠ []) : ' ' :: row toks = join toks := by
  cases toks with
  | nil => exact absurd rfl hne
  | cons tok toks => rfl

theorem row_row {toks : List (List Char)} {k : ℕ} (hne : toks ≠ [])
    (hlen : ∀ tok ∈ toks, tok.length ≤ k) (hshort : toks.length * (k + 1) < sizeofBuffer) :
    Row sizeofBuffer toks (row toks) where
  spaced := by
    rw [cons_row hne]
    exact spaced_join toks
  short := by
    have hle := length_join_le hlen
    rw [← cons_row hne, List.length_cons] at hle
    omega

/-- No blank stands behind the last token. -/
theorem not_isBlank_join {toks : List (List Char)} (htoks : ∀ tok ∈ toks, IsToken tok) :
    ∀ c ∈ (join toks).getLast?, ¬ isBlank c := by
  induction toks with
  | nil => intro c hc; cases hc
  | cons tok toks ih =>
      intro c hc
      have htok := htoks tok List.mem_cons_self
      have hjoin : join (tok :: toks) = ' ' :: tok ++ join toks := rfl
      rw [hjoin] at hc
      by_cases hrest : join toks = []
      · rw [hrest, List.append_nil, List.getLast?_cons_of_ne_nil htok.ne_nil] at hc
        intro hblank
        exact htok.not_space c (List.mem_of_getLast? hc) (isSpace_of_isBlank hblank)
      · rw [List.getLast?_append_of_ne_nil _ hrest] at hc
        exact ih (fun t ht => htoks t (List.mem_cons_of_mem tok ht)) c hc

/-- The text with one blank between the tokens. -/
def configText (c : SimConfig) : List Char :=
  row c.header ++ '\n' ::
    ((c.sizes.elim [] fun m => row m.tokens ++ ['\n']) ++
      c.procs.flatMap fun p => row p.tokens ++ ['\n'])

theorem row_procs (p : ProcConfig) : Row sizeofBuffer p.tokens (row p.tokens) := by
  have hdigits : ∀ v : BitVec 64, (Conversion.u.print v).length ≤ 20 := fun v =>
    (Nat.length_toDigits_le_iff (by decide) (by decide)).mpr (v.isLt.trans (by decide))
  have hshort := p.short
  have hjoin : (join p.tokens).length = (Conversion.u.print p.startTime).length +
      p.name.length + (Conversion.u.print p.prio).length + 3 := by
    simp [join, ProcConfig.tokens]
    omega
  have hne : p.tokens ≠ [] := List.cons_ne_nil _ _
  constructor
  · rw [cons_row hne]
    exact spaced_join _
  · have hstart := hdigits p.startTime
    have hprio := hdigits p.prio
    rw [← cons_row hne, List.length_cons] at hjoin
    rw [sizeofBuffer]
    omega

/-- **Every configuration has a text.** -/
theorem printed_configText (c : SimConfig) : Printed c (configText c) := by
  have hheader : Row sizeofBuffer c.header (row c.header) := by
    refine row_row (List.cons_ne_nil _ _) (k := 11) ?_ (by decide : 3 * 12 < sizeofBuffer)
    intro tok htok
    simp only [SimConfig.header, List.mem_cons, List.not_mem_nil, or_false] at htok
    rcases htok with rfl | rfl | rfl <;> exact length_print_le .d _
  have hsizes : ∀ m : Sizes, Row sizeofBuffer m.tokens (row m.tokens) := by
    intro m
    refine row_row (List.cons_ne_nil _ _) (k := 11) ?_ ?_
    · intro tok htok
      obtain ⟨v, -, rfl⟩ := List.mem_map.mp htok
      exact length_print_le .d v
    · rw [Sizes.tokens, List.length_map, List.length_cons, m.length_eq]
      decide
  have hprocs : ∀ ps : List ProcConfig,
      PrintedProcs ps (ps.flatMap fun p => row p.tokens ++ ['\n']) := by
    intro ps
    induction ps with
    | nil => exact .nil _
    | cons p ps ih =>
        have hcons := PrintedProcs.cons (row_procs p) ih
        simpa using hcons
  refine ⟨_, _, rfl, hheader, ?_⟩
  cases c.sizes with
  | none => exact hprocs c.procs
  | some m =>
      refine ⟨row m.tokens, _, by simp, hsizes m, ?_, hprocs c.procs⟩
      · have hne : m.tokens ≠ [] := List.cons_ne_nil _ _
        have hrow : row m.tokens ≠ [] :=
          (hsizes m).ne_nil (m.isToken_tokens _ List.mem_cons_self)
        have hlast := not_isBlank_join m.isToken_tokens
        rwa [← cons_row hne, List.getLast?_cons_of_ne_nil hrow] at hlast

/-- **`read_config` reads back every configuration**: it has a text, and is read from each of
its texts, whatever blanks stand between the numbers and the names, whether there is a line of
sizes or not, whether the file ends with a newline or not, and whatever `malloc` finds. -/
theorem readConfig_printed (c : SimConfig) :
    Printed c (configText c) ∧
      ∀ s, Printed c s → ∀ fresh, readConfig fresh s = some (.ok c.osConfig) :=
  ⟨printed_configText c, fun _ hs fresh => readConfig_eq hs fresh⟩

end SimOs.Os.ReadConfig
