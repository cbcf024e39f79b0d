import Mathlib.Algebra.Order.Ring.Int
import Mathlib.Data.List.DropRight
import Mathlib.Data.List.TakeWhile

/-!
# Formatted input

What `fscanf`, `sscanf` and `fgets` do to a stream of characters, as the C standard says,
for the conversions `%s`, `%u` and `%d` and white space in a format.  A conversion skips
white space first and takes as much as it can.  A number that does not fit into its type,
or a string that does not fit into its buffer, is undefined.  A failed conversion ends the
call, and leaves its argument as it was.

A line is printed as tokens with blanks between them.  What a conversion reads from it is
the next token, and what it leaves begins with a space, so the next conversion is in step
again, whether a format skips to the next line, or `fgets` takes the rest of this one.

## Main definitions

* `word`, `number`, `scan`, `fgets`: the readers.
* `Conversion.print`: what `printf` prints for a conversion.
* `Spaced`: the rest of a line, after its first token.
* `scan_print`: a conversion reads back what was printed for it.
-/

namespace Scan

/-! ## The readers -/

/-- `isspace`, in the `"C"` locale. -/
def isSpace (c : Char) : Bool := c.toNat = 32 || (9 ≤ c.toNat && c.toNat ≤ 13)

/-- White space in a format. -/
def skip (s : List Char) : List Char := s.dropWhile isSpace

/-- `%s` into an array of `size` characters: the word, or `none` at the end of the input, and
the rest. -/
def word (size : ℕ) (s : List Char) : Option (Option (List Char) × List Char) :=
  let w := (skip s).takeWhile fun c => !isSpace c
  if w = [] then some (none, skip s)
  else if w.length < size then some (some w, (skip s).dropWhile fun c => !isSpace c)
  else none

/-- An optional sign, true if it is a minus. -/
def sign : List Char → Bool × List Char
  | '-' :: s => (true, s)
  | '+' :: s => (false, s)
  | s => (false, s)

/-- A decimal number: sign and magnitude, or `none` if there are no digits, and the rest. -/
def number (s : List Char) : Option (Bool × ℕ) × List Char :=
  let t := sign (skip s)
  let digits := t.2.takeWhile Char.isDigit
  if digits = [] then (none, t.2)
  else (some (t.1, Nat.ofDigitChars 10 digits 0), t.2.dropWhile Char.isDigit)

/-- A conversion of a number. -/
inductive Conversion
  /-- `%u`. -/
  | u
  /-- `%d`. -/
  | d
  deriving DecidableEq

/-- The value of a number, if its type of `w` bits has it. -/
def Conversion.value (w : ℕ) (neg : Bool) (n : ℕ) : Conversion → Option (BitVec w)
  | u => if n < 2 ^ w then some (if neg then -BitVec.ofNat w n else BitVec.ofNat w n) else none
  | d =>
      let v : ℤ := if neg then -n else n
      if -2 ^ w ≤ v * 2 ∧ v * 2 < 2 ^ w then some (BitVec.ofInt w v) else none

/-- A part of a format. -/
inductive Directive
  | space
  | conv (c : Conversion)
  deriving DecidableEq

/-- `fscanf` with a format: the values that are assigned, and the rest. -/
def scan (w : ℕ) : List Directive → List Char → Option (List (BitVec w) × List Char)
  | [], s => some ([], s)
  | .space :: fmt, s => scan w fmt (skip s)
  | .conv c :: fmt, s =>
      match number s with
      | (none, rest) => some ([], rest)
      | (some (neg, n), rest) =>
          (c.value w neg n).bind fun v => (scan w fmt rest).map fun r => (v :: r.1, r.2)

/-- A line with its end, but no more than `n` characters, and the rest. -/
def line : ℕ → List Char → List Char × List Char
  | 0, s => ([], s)
  | _ + 1, [] => ([], [])
  | n + 1, c :: s =>
      if c = '\n' then ([c], s)
      else
        let r := line n s
        (c :: r.1, r.2)

/-- `fgets` into an array of `size` characters, and the rest.  At the end of the input it
reads nothing. -/
def fgets (size : ℕ) (s : List Char) : Option (List Char) × List Char :=
  if s = [] then (none, [])
  else
    let r := line (size - 1) s
    (some r.1, r.2)

/-! ## Printing -/

/-- What `printf` prints. -/
def Conversion.print {w : ℕ} (v : BitVec w) : Conversion → List Char
  | u => Nat.toDigits 10 v.toNat
  | d => if v.toInt < 0 then '-' :: Nat.toDigits 10 v.toInt.natAbs
      else Nat.toDigits 10 v.toInt.natAbs

/-- `isblank`. -/
def isBlank (c : Char) : Bool := c = ' ' || c = '\t'

/-- Blanks only. -/
def Blanks (s : List Char) : Prop := ∀ c ∈ s, isBlank c

/-- The rest of a line whose tokens to come are `toks`: blanks before each of them, and
perhaps at the end. -/
inductive Spaced : List (List Char) → List Char → Prop
  | done {trail : List Char} (h : Blanks trail) : Spaced [] trail
  | token {gap tok rest : List Char} {toks : List (List Char)} (hne : gap ≠ [])
      (hgap : Blanks gap) (h : Spaced toks rest) : Spaced (tok :: toks) (gap ++ (tok ++ rest))

/-- What does not continue a token: the end of the input, or white space. -/
def Apart (s : List Char) : Prop := ∀ c ∈ s.head?, isSpace c

/-- What `%s` reads: at least one character, and none that is white space. -/
structure IsToken (tok : List Char) : Prop where
  ne_nil : tok ≠ []
  not_space : ∀ c ∈ tok, ¬ isSpace c

/-! ## White space -/

theorem isSpace_of_isBlank {c : Char} (h : isBlank c) : isSpace c := by
  rw [isBlank, Bool.or_eq_true, decide_eq_true_eq, decide_eq_true_eq] at h
  cases h with
  | inl h => rw [h]; decide
  | inr h => rw [h]; decide

/-- The codes of the digits. -/
theorem toNat_of_isDigit {c : Char} (h : c.isDigit) : 48 ≤ c.toNat ∧ c.toNat ≤ 57 := by
  simp only [Char.isDigit, Bool.and_eq_true, decide_eq_true_eq, ge_iff_le] at h
  obtain ⟨hle, hge⟩ := h
  exact ⟨hle, hge⟩

theorem not_isDigit_of_isSpace {c : Char} (h : isSpace c) : ¬ c.isDigit := by
  intro hdigit
  have hrange := toNat_of_isDigit hdigit
  simp only [isSpace, Bool.or_eq_true, Bool.and_eq_true, decide_eq_true_eq] at h
  omega

/-- A run of characters that satisfy `p`, in front of one that does not. -/
theorem takeWhile_run {p : Char → Bool} {run rest : List Char} (hrun : ∀ c ∈ run, p c)
    (hrest : ∀ c ∈ rest.head?, ¬ p c) :
    (run ++ rest).takeWhile p = run ∧ (run ++ rest).dropWhile p = rest := by
  rw [List.takeWhile_append_of_pos hrun, List.dropWhile_append_of_pos hrun]
  cases rest with
  | nil => simp
  | cons c rest =>
      have hc : ¬ p c := hrest c rfl
      simp [hc]

theorem skip_append {gap : List Char} (hgap : ∀ c ∈ gap, isSpace c) (s : List Char) :
    skip (gap ++ s) = skip s := List.dropWhile_append_of_pos hgap

@[simp] theorem skip_skip (s : List Char) : skip (skip s) = skip s :=
  List.dropWhile_idempotent ..

theorem IsToken.skip_append {tok : List Char} (h : IsToken tok) (s : List Char) :
    skip (tok ++ s) = tok ++ s := by
  cases tok with
  | nil => exact absurd rfl h.ne_nil
  | cons c tok =>
      have hc : ¬ isSpace c := h.not_space c List.mem_cons_self
      simp [skip, hc]

theorem Blanks.space {s : List Char} (h : Blanks s) : ∀ c ∈ s, isSpace c := fun c hc =>
  isSpace_of_isBlank (h c hc)

/-- The rest of a line does not continue a token, whether it ends there or not. -/
theorem Spaced.apart {toks : List (List Char)} {s : List Char} (h : Spaced toks s)
    (rest : List Char) : Apart (s ++ '\n' :: rest) := by
  intro c hc
  cases h with
  | done h =>
      cases s with
      | nil =>
          obtain rfl := Option.some.inj hc
          decide
      | cons b s =>
          obtain rfl := Option.some.inj hc
          exact h.space b List.mem_cons_self
  | @token gap tok rest' toks hne hgap h =>
      cases gap with
      | nil => exact absurd rfl hne
      | cons b gap =>
          obtain rfl := Option.some.inj hc
          exact hgap.space b List.mem_cons_self

/-! ## Strings -/

/-- `%s` looks behind the white space only. -/
theorem word_congr {size : ℕ} {s t : List Char} (h : skip s = skip t) :
    word size s = word size t := by
  simp only [word, h]

/-- **`%s`** reads a token. -/
theorem word_token {size : ℕ} {tok rest : List Char} (h : IsToken tok) (hlen : tok.length < size)
    (hrest : Apart rest) : word size (tok ++ rest) = some (some tok, rest) := by
  have hin : ∀ c ∈ tok, (!isSpace c) = true := fun c hc => by simpa using h.not_space c hc
  have hout : ∀ c ∈ rest.head?, ¬ (!isSpace c) = true := fun c hc => by simpa using hrest c hc
  have hrun := takeWhile_run hin hout
  rw [word, h.skip_append]
  simp only [hrun.1, hrun.2, if_neg h.ne_nil, if_pos hlen]

/-! ## Numbers -/

theorem number_congr {s t : List Char} (h : skip s = skip t) : number s = number t := by
  simp only [number, h]

theorem sign_of_isDigit {c : Char} (h : c.isDigit) (s : List Char) :
    sign (c :: s) = (false, c :: s) := by
  have hrange := toNat_of_isDigit h
  unfold sign
  split
  · next heq =>
      obtain ⟨rfl, -⟩ := List.cons.inj heq
      exact absurd hrange (by decide)
  · next heq =>
      obtain ⟨rfl, -⟩ := List.cons.inj heq
      exact absurd hrange (by decide)
  · rfl

theorem isToken_toDigits (n : ℕ) : IsToken (Nat.toDigits 10 n) where
  ne_nil := Nat.toDigits_ne_nil
  not_space c hc hspace :=
    not_isDigit_of_isSpace hspace (Nat.isDigit_of_mem_toDigits (by decide) (by decide) hc)

/-- The digits of a number, read up to the end of the token. -/
theorem digits_run (n : ℕ) {rest : List Char} (hrest : Apart rest) :
    (Nat.toDigits 10 n ++ rest).takeWhile Char.isDigit = Nat.toDigits 10 n ∧
      (Nat.toDigits 10 n ++ rest).dropWhile Char.isDigit = rest :=
  takeWhile_run (fun _ hc => Nat.isDigit_of_mem_toDigits (by decide) (by decide) hc)
    fun c hc => not_isDigit_of_isSpace (hrest c hc)

theorem number_digits (n : ℕ) {rest : List Char} (hrest : Apart rest) :
    number (Nat.toDigits 10 n ++ rest) = (some (false, n), rest) := by
  have hsign : sign (Nat.toDigits 10 n ++ rest) = (false, Nat.toDigits 10 n ++ rest) := by
    cases hdigits : Nat.toDigits 10 n with
    | nil => exact absurd hdigits Nat.toDigits_ne_nil
    | cons c s =>
        have hc : c ∈ Nat.toDigits 10 n := hdigits ▸ List.mem_cons_self
        exact sign_of_isDigit (Nat.isDigit_of_mem_toDigits (by decide) (by decide) hc) _
  obtain ⟨htake, hdrop⟩ := digits_run n hrest
  rw [number, (isToken_toDigits n).skip_append, hsign]
  simp only [htake, hdrop, if_neg Nat.toDigits_ne_nil, Nat.ofDigitChars_ten_toDigits]

theorem number_minus (n : ℕ) {rest : List Char} (hrest : Apart rest) :
    number ('-' :: Nat.toDigits 10 n ++ rest) = (some (true, n), rest) := by
  have hskip : skip ('-' :: Nat.toDigits 10 n ++ rest) = '-' :: (Nat.toDigits 10 n ++ rest) := rfl
  obtain ⟨htake, hdrop⟩ := digits_run n hrest
  rw [number, hskip, sign]
  simp only [htake, hdrop, if_neg Nat.toDigits_ne_nil, Nat.ofDigitChars_ten_toDigits]

variable {w : ℕ}

/-- **A number** is read back, up to the end of its token. -/
theorem number_print (c : Conversion) (v : BitVec w) {rest : List Char} (hrest : Apart rest) :
    ∃ neg n, number (c.print v ++ rest) = (some (neg, n), rest) ∧ c.value w neg n = some v := by
  cases c with
  | u =>
      refine ⟨false, v.toNat, number_digits v.toNat hrest, ?_⟩
      simp [Conversion.value, v.isLt]
  | d =>
      have hlo := BitVec.le_two_mul_toInt (x := v)
      have hhi := BitVec.two_mul_toInt_lt (x := v)
      by_cases hneg : v.toInt < 0
      · have habs : -(v.toInt.natAbs : ℤ) = v.toInt := by omega
        refine ⟨true, v.toInt.natAbs, ?_, ?_⟩
        · rw [Conversion.print, if_pos hneg]
          exact number_minus _ hrest
        · simp only [Conversion.value, if_true, habs]
          rw [if_pos ⟨by omega, by omega⟩, BitVec.ofInt_toInt]
      · have habs : (v.toInt.natAbs : ℤ) = v.toInt := by omega
        refine ⟨false, v.toInt.natAbs, ?_, ?_⟩
        · rw [Conversion.print, if_neg hneg]
          exact number_digits _ hrest
        · simp only [Conversion.value, Bool.false_eq_true, if_false, habs]
          rw [if_pos ⟨by omega, by omega⟩, BitVec.ofInt_toInt]

theorem isToken_print (c : Conversion) (v : BitVec w) : IsToken (c.print v) := by
  cases c with
  | u => exact isToken_toDigits v.toNat
  | d =>
      rw [Conversion.print]
      split
      · constructor
        · simp
        · intro c hc
          cases List.mem_cons.mp hc with
          | inl heq => rw [heq]; decide
          | inr hmem => exact (isToken_toDigits _).not_space c hmem
      · exact isToken_toDigits _

/-! ## Formats -/

/-- **A conversion** reads back what was printed for it, and leaves the rest to the format. -/
theorem scan_print (c : Conversion) (v : BitVec w) (fmt : List Directive) {s rest : List Char}
    (hs : skip s = c.print v ++ rest) (hrest : Apart rest) :
    scan w (.conv c :: fmt) s = (scan w fmt rest).map fun r => (v :: r.1, r.2) := by
  obtain ⟨neg, n, hnumber, hvalue⟩ := number_print c v hrest
  have hcongr : number s = (some (neg, n), rest) := by
    rw [← hnumber]
    apply number_congr
    rw [hs, (isToken_print c v).skip_append]
  simp only [scan, hcongr, hvalue, Option.bind_some]

/-- At the end of a line only the next one is left. -/
theorem skip_line {s : List Char} (h : Blanks s) (rest : List Char) :
    skip (s ++ '\n' :: rest) = skip rest := by
  rw [skip_append h.space]
  rfl

/-- Before a token of a line only white space is skipped. -/
theorem skip_gap {gap tok : List Char} (hgap : Blanks gap) (htok : IsToken tok)
    (rest : List Char) : skip (gap ++ (tok ++ rest)) = tok ++ rest := by
  rw [skip_append hgap.space, htok.skip_append]

/-- A format with white space behind each of its `n` conversions. -/
def spacedFormat (c : Conversion) (n : ℕ) : List Directive :=
  (List.replicate n [.conv c, .space]).flatten

/-- **A format that ends in white space** reads the numbers of a line, and goes on to the
next line. -/
theorem scan_spacedFormat (c : Conversion) (vs : List (BitVec w)) {s tail x : List Char}
    (h : Spaced (vs.map c.print) s) (hx : skip x = skip (s ++ '\n' :: tail)) :
    ∃ r, scan w (spacedFormat c vs.length) x = some (vs, r) ∧ skip r = skip tail := by
  induction vs generalizing s x with
  | nil =>
      cases h with
      | done hblank => exact ⟨x, rfl, hx.trans (skip_line hblank tail)⟩
  | cons v vs ih =>
      cases h with
      | @token gap tok rest toks hne hgap h =>
          rw [List.append_assoc, List.append_assoc, skip_gap hgap (isToken_print c v)] at hx
          obtain ⟨r, hr, hskip⟩ := ih h (skip_skip (rest ++ '\n' :: tail))
          refine ⟨r, ?_, hskip⟩
          have hfmt : spacedFormat c (v :: vs).length =
              .conv c :: .space :: spacedFormat c vs.length := rfl
          rw [hfmt, scan_print c v _ hx (h.apart tail), scan, hr]
          rfl

/-- **A format of conversions only** reads the numbers of a line, even if it asks for more:
there it comes to the end of the input. -/
theorem scan_replicate (c : Conversion) (vs : List (BitVec w)) {n : ℕ} (hn : vs.length ≤ n)
    {s x : List Char} (h : Spaced (vs.map c.print) s) (hx : skip x = skip (s ++ ['\n'])) :
    ∃ r, scan w (List.replicate n (.conv c)) x = some (vs, r) := by
  induction vs generalizing n s x with
  | nil =>
      cases h with
      | done hblank =>
          have hend : number x = (none, []) :=
            number_congr (t := []) (hx.trans (skip_line hblank []))
          cases n with
          | zero => exact ⟨x, rfl⟩
          | succ n => exact ⟨[], by simp only [List.replicate_succ, scan, hend]⟩
  | cons v vs ih =>
      cases n with
      | zero => cases hn
      | succ n =>
          cases h with
          | @token gap tok rest toks hne hgap h =>
              rw [List.append_assoc, List.append_assoc, skip_gap hgap (isToken_print c v)] at hx
              obtain ⟨r, hr⟩ := ih (Nat.le_of_succ_le_succ hn) h rfl
              refine ⟨r, ?_⟩
              rw [List.replicate_succ, scan_print c v _ hx (h.apart []), hr]
              rfl

/-! ## Lines -/

theorem line_newline {n : ℕ} {s : List Char} (hs : '\n' ∉ s) (hn : s.length < n)
    (rest : List Char) : line n (s ++ '\n' :: rest) = (s ++ ['\n'], rest) := by
  induction s generalizing n with
  | nil =>
      cases n with
      | zero => cases hn
      | succ n => simp [line]
  | cons c s ih =>
      rw [List.mem_cons, not_or] at hs
      cases n with
      | zero => cases hn
      | succ n =>
          have hc : ¬ c = '\n' := fun heq => hs.1 heq.symm
          simp only [List.cons_append, line, if_neg hc, ih hs.2 (Nat.lt_of_succ_lt_succ hn)]

/-- **`fgets`** reads a line that fits into the array. -/
theorem fgets_line {size : ℕ} {s : List Char} (hs : '\n' ∉ s) (hlen : s.length + 1 < size)
    (rest : List Char) : fgets size (s ++ '\n' :: rest) = (some (s ++ ['\n']), rest) := by
  have hne : s ++ '\n' :: rest ≠ [] := by simp
  rw [fgets, if_neg hne, line_newline hs (by omega)]

/-- A line has one end. -/
theorem Spaced.no_newline {toks : List (List Char)} {s : List Char} (h : Spaced toks s)
    (htoks : ∀ tok ∈ toks, IsToken tok) : '\n' ∉ s := by
  induction h with
  | done h =>
      intro hmem
      exact absurd (h _ hmem) (by decide)
  | @token gap tok rest toks hne hgap h ih =>
      intro hmem
      cases List.mem_append.mp hmem with
      | inl hin => exact absurd (hgap _ hin) (by decide)
      | inr hin =>
          cases List.mem_append.mp hin with
          | inl htok => exact (htoks tok List.mem_cons_self).not_space _ htok (by decide)
          | inr hrest => exact ih (fun t ht => htoks t (List.mem_cons_of_mem tok ht)) hrest

/-! ## Plain printing -/

/-- The tokens with one blank before each. -/
def join (toks : List (List Char)) : List Char := toks.flatMap fun tok => ' ' :: tok

theorem spaced_join (toks : List (List Char)) : Spaced toks (join toks) := by
  induction toks with
  | nil => exact .done fun c hc => absurd hc List.not_mem_nil
  | cons tok toks ih =>
      have hgap : Blanks [' '] := by
        intro c hc
        rw [List.mem_singleton.mp hc]
        decide
      exact Spaced.token (List.cons_ne_nil ' ' []) hgap ih

theorem length_join_le {toks : List (List Char)} {k : ℕ} (h : ∀ tok ∈ toks, tok.length ≤ k) :
    (join toks).length ≤ toks.length * (k + 1) := by
  induction toks with
  | nil => simp [join]
  | cons tok toks ih =>
      have hrest := ih fun t ht => h t (List.mem_cons_of_mem tok ht)
      have hone := h tok List.mem_cons_self
      rw [List.length_cons, Nat.succ_mul]
      simp only [join, List.flatMap_cons, List.length_append, List.length_cons] at hrest ⊢
      omega

/-- An `int` has ten digits at most, and a sign. -/
theorem length_print_le (c : Conversion) (v : BitVec 32) : (c.print v).length ≤ 11 := by
  have hdigits : ∀ n : ℕ, n < 10 ^ 10 → (Nat.toDigits 10 n).length ≤ 10 := fun n hn =>
    (Nat.length_toDigits_le_iff (by decide) (by decide)).mpr hn
  cases c with
  | u =>
      have hlt := v.isLt
      have hle := hdigits v.toNat (by omega)
      simp only [Conversion.print]
      omega
  | d =>
      have hlo := BitVec.le_two_mul_toInt (x := v)
      have hhi := BitVec.two_mul_toInt_lt (x := v)
      have hle := hdigits v.toInt.natAbs (by omega)
      rw [Conversion.print]
      split
      · rw [List.length_cons]
        omega
      · omega

end Scan
