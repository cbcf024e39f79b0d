import SimOs.Lib.Scan

/-!
# Rows of tokens

A row is a line of tokens with blanks around them, which ends in a newline or at the end of
the input.  `fgets` takes the whole row, and conversions take its tokens one by one, whatever
stands between them.

## Main definitions

* `Row`: a line of the given tokens that fits into an array.
* `scan_token`, `word_next`: a conversion takes the next token.
* `Row.fgets`: `fgets` takes the row.
* `Spaced.mem`: what stands in a row.
-/

namespace Scan

variable {w : ℕ} {toks : List (List Char)} {s e x : List Char}

/-- What is left of a row does not continue a token. -/
theorem Spaced.apart_append (h : Spaced toks s) (he : Apart e) : Apart (s ++ e) := by
  intro c hc
  cases h with
  | done h =>
      cases s with
      | nil => exact he c hc
      | cons b s =>
          obtain rfl := Option.some.inj hc
          exact h.space b List.mem_cons_self
  | @token gap tok rest toks hne hgap h =>
      cases gap with
      | nil => exact absurd rfl hne
      | cons b gap =>
          obtain rfl := Option.some.inj hc
          exact hgap.space b List.mem_cons_self

/-- Before the first token only white space is skipped. -/
theorem Spaced.skip_eq {tok : List Char} (htok : IsToken tok) (h : Spaced (tok :: toks) s)
    (hx : skip x = skip (s ++ e)) :
    ∃ gap rest, s = gap ++ (tok ++ rest) ∧ Spaced toks rest ∧ skip x = tok ++ (rest ++ e) := by
  cases h with
  | @token gap tok rest toks hne hgap h =>
      refine ⟨gap, rest, rfl, h, ?_⟩
      rw [hx, List.append_assoc, List.append_assoc, skip_gap hgap htok]

/-- **A conversion** of a number takes the next token. -/
theorem scan_token (c : Conversion) (v : BitVec w) (fmt : List Directive) (he : Apart e)
    (h : Spaced (c.print v :: toks) s) (hx : skip x = skip (s ++ e)) :
    ∃ gap rest, s = gap ++ (c.print v ++ rest) ∧ Spaced toks rest ∧
      scan w (.conv c :: fmt) x = (scan w fmt (rest ++ e)).map fun r => (v :: r.1, r.2) := by
  obtain ⟨gap, rest, hs, hrest, hskip⟩ := h.skip_eq (isToken_print c v) hx
  exact ⟨gap, rest, hs, hrest, scan_print c v fmt hskip (hrest.apart_append he)⟩

/-- **`%s`** takes the next token, if the array has room for it. -/
theorem word_next {tok : List Char} {size : ℕ} (htok : IsToken tok) (hlen : tok.length < size)
    (he : Apart e) (h : Spaced (tok :: toks) s) (hx : skip x = skip (s ++ e)) :
    ∃ rest, Spaced toks rest ∧ word size x = some (some tok, rest ++ e) := by
  obtain ⟨gap, rest, -, hrest, hskip⟩ := h.skip_eq htok hx
  refine ⟨rest, hrest, ?_⟩
  have hsame : skip x = skip (tok ++ (rest ++ e)) := by rw [hskip, htok.skip_append]
  rw [word_congr hsame]
  exact word_token htok hlen (hrest.apart_append he)

/-- **What stands in a row**: blanks, and the characters of the tokens. -/
theorem Spaced.mem (h : Spaced toks s) (c : Char) :
    c ∈ s → isBlank c ∨ ∃ tok ∈ toks, c ∈ tok := by
  induction h with
  | done h => exact fun hc => Or.inl (h c hc)
  | @token gap tok rest toks hne hgap h ih =>
      intro hc
      rcases List.mem_append.mp hc with hc | hc
      · exact Or.inl (hgap c hc)
      · rcases List.mem_append.mp hc with hc | hc
        · exact Or.inr ⟨tok, List.mem_cons_self, hc⟩
        · rcases ih hc with hblank | ⟨t, ht, hct⟩
          · exact Or.inl hblank
          · exact Or.inr ⟨t, List.mem_cons_of_mem tok ht, hct⟩

theorem Spaced.subset (h : Spaced toks s) {tok : List Char} (htok : tok ∈ toks) : tok ⊆ s := by
  induction h with
  | done h => cases htok
  | @token gap tok' rest toks hne hgap h ih =>
      intro c hc
      rcases List.mem_cons.mp htok with rfl | htok
      · exact List.mem_append_right _ (List.mem_append_left _ hc)
      · exact List.mem_append_right _ (List.mem_append_right _ (ih htok hc))

/-! ## Rows -/

/-- A line of the tokens `toks`, with blanks between them and perhaps around them, that `fgets`
reads into an array of `size` characters. -/
structure Row (size : ℕ) (toks : List (List Char)) (s : List Char) : Prop where
  /-- With a blank in front each token has one before it. -/
  spaced : Spaced toks (' ' :: s)
  short : s.length + 1 < size

/-- A line may end with the input. -/
theorem line_last {n : ℕ} (hs : '\n' ∉ s) (hn : s.length < n) : line n s = (s, []) := by
  induction s generalizing n with
  | nil => cases n <;> rfl
  | cons c s ih =>
      rw [List.mem_cons, not_or] at hs
      cases n with
      | zero => cases hn
      | succ n =>
          have hc : ¬ c = '\n' := fun heq => hs.1 heq.symm
          simp only [line, if_neg hc, ih hs.2 (Nat.lt_of_succ_lt_succ hn)]

theorem skip_blank (s : List Char) : skip (' ' :: s) = skip s := rfl

namespace Row
variable {size : ℕ}

theorem no_newline (h : Row size toks s) (htoks : ∀ tok ∈ toks, IsToken tok) : '\n' ∉ s :=
  fun hmem => h.spaced.no_newline htoks (List.mem_cons_of_mem ' ' hmem)

/-- **`fgets`** takes the row and its newline. -/
theorem fgets (h : Row size toks s) (htoks : ∀ tok ∈ toks, IsToken tok) (rest : List Char) :
    Scan.fgets size (s ++ '\n' :: rest) = (some (s ++ ['\n']), rest) :=
  fgets_line (h.no_newline htoks) h.short rest

theorem ne_nil {tok : List Char} (h : Row size (tok :: toks) s) (htok : IsToken tok) :
    s ≠ [] := by
  rintro rfl
  obtain ⟨c, hc⟩ := List.exists_mem_of_ne_nil tok htok.ne_nil
  obtain rfl := List.mem_singleton.mp (h.spaced.subset List.mem_cons_self hc)
  exact htok.not_space ' ' hc (by decide)

/-- At the end of the input a row has no newline. -/
theorem fgets_last {tok : List Char} (h : Row size (tok :: toks) s)
    (htoks : ∀ t ∈ tok :: toks, IsToken t) : Scan.fgets size s = (some s, []) := by
  have hshort := h.short
  have hne := h.ne_nil (htoks tok List.mem_cons_self)
  rw [Scan.fgets, if_neg hne, line_last (h.no_newline htoks) (by omega)]

end Row

end Scan
