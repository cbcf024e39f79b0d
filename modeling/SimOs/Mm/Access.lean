import SimOs.Lib.Transition
import SimOs.Mm.Mapping

/-!
# Processes that access a shared memory

Processes whose page tables `vmap_page_range` has filled read and write bytes of the RAM
they share.  A history records what was last written at every address of every process,
so that what is read can be compared with it.

## Main definitions

* `MapCall`, `mapAll`: a sequence of calls of `vmap_page_range`.
* `Mapped`: the addresses that it maps.
* `Shared`: the state of the processes and of their devices.
* `accessSystem`: their accesses in any order, with the history.
-/

namespace SimOs.Libmem

universe u

variable {ι : Type u} [DecidableEq ι]

/-- A call of `vmap_page_range` for process `proc` with a null-terminated list of
frames. -/
structure MapCall (ι : Type u) where
  proc : ι
  addr : ℤ
  pgnum : ℤ
  frames : List ℤ

namespace MapCall

/-- The number of pages it maps. -/
def count (m : MapCall ι) : ℕ := mapCount m.pgnum m.frames

/-- The range is page-aligned and below 2^22. -/
structure Fits (m : MapCall ι) : Prop where
  aligned : (pagingPagesz : ℤ) ∣ m.addr
  nonneg : 0 ≤ m.addr
  below : m.addr + pagingPagesz * m.count ≤ 2 ^ pagingCpuBusWidth

/-- What it does to the memory management states. -/
def run (m : MapCall ι) (mm : ι → Mm) : Option (ι → Mm) :=
  (vmapPageRange (mm m.proc) m.addr m.pgnum (Chain.ofList m.frames)).map fun r =>
    Function.update mm m.proc r.2

end MapCall

/-- The calls in order. -/
def mapAll : (ι → Mm) → List (MapCall ι) → Option (ι → Mm)
  | mm, [] => some mm
  | mm, m :: ms => (m.run mm).bind fun mm => mapAll mm ms

/-- The frames that the calls are given. -/
def framesOf (maps : List (MapCall ι)) : List ℤ := maps.flatMap MapCall.frames

/-- The pages that the calls map. -/
def MappedPage (maps : List (MapCall ι)) (i : ι) (q : ℕ) : Prop :=
  ∃ m ∈ maps, m.proc = i ∧ pagingPgn m.addr ≤ q ∧ q < pagingPgn m.addr + m.count

/-- The addresses that the calls map. -/
def Mapped (maps : List (MapCall ι)) (k : ι × ℤ) : Prop :=
  ∃ m ∈ maps, m.proc = k.1 ∧ m.addr ≤ k.2 ∧ k.2 < m.addr + pagingPagesz * m.count

instance (maps : List (MapCall ι)) (k : ι × ℤ) : Decidable (Mapped maps k) :=
  inferInstanceAs (Decidable (∃ m ∈ maps, _))

/-- The processes and the devices they share. -/
structure Shared (ι : Type u) where
  mm : ι → Mm
  dev : Dev → Memphy

namespace Shared

/-- Process `i` as a caller. -/
def caller (s : Shared ι) (i : ι) : Caller := ⟨s.mm i, s.dev⟩

/-- The state after a call of process `i`. -/
def put (s : Shared ι) (i : ι) (c : Caller) : Shared ι := ⟨Function.update s.mm i c.mm, c.dev⟩

/-- `pg_getval` by process `i`. -/
def getval (s : Shared ι) (i : ι) (addr : ℤ) : Option (Ret BYTE × Shared ι) :=
  (pgGetval (s.caller i) addr).map fun r => (r.1, s.put i r.2)

/-- `pg_setval` by process `i`. -/
def setval (s : Shared ι) (i : ι) (addr : ℤ) (value : BYTE) : Option (Ret Unit × Shared ι) :=
  (pgSetval (s.caller i) addr value).map fun r => (r.1, s.put i r.2)

/-- The page tables. -/
def pgd (s : Shared ι) (i : ι) : ℕ → BitVec 32 := (s.mm i).pgd

/-- The contents of RAM. -/
def ram (s : Shared ι) : ℤ → BYTE := (s.dev .mram).storage

/-- The byte of RAM that an address translates to. -/
def byteAt (s : Shared ι) (k : ι × ℤ) : BYTE := s.ram (cell s.pgd k)

theorem pgd_put (s : Shared ι) (i : ι) (c : Caller) :
    (s.put i c).pgd = Function.update s.pgd i c.mm.pgd := by
  funext j
  rcases eq_or_ne j i with rfl | hne
  · simp only [pgd, put, Function.update_self]
  · simp only [pgd, put, Function.update_of_ne hne]

theorem ram_put (s : Shared ι) (i : ι) (c : Caller) :
    (s.put i c).ram = (c.dev .mram).storage := rfl

@[simp] theorem put_caller (s : Shared ι) (i : ι) : s.put i (s.caller i) = s := by
  rw [put, caller, Function.update_eq_self]

end Shared

/-- An access of a process to a byte. -/
inductive Access (ι : Type u)
  | getval (i : ι) (addr : ℤ)
  | setval (i : ι) (addr : ℤ) (value : BYTE)

/-- Who accesses which address. -/
def Access.key : Access ι → ι × ℤ
  | .getval i addr => (i, addr)
  | .setval i addr _ => (i, addr)

/-- The present state, and the byte last written at each address with success, if any. -/
structure History (ι : Type u) where
  now : Shared ι
  written : ι × ℤ → Option BYTE

namespace History

/-- The effect of an access. -/
def access (h : History ι) : Access ι → Option (History ι)
  | .getval i addr => (h.now.getval i addr).map fun r => { h with now := r.2 }
  | .setval i addr value => (h.now.setval i addr value).map fun r =>
      { now := r.2
        written :=
          if r.1 = .ok () then Function.update h.written (i, addr) (some value)
          else h.written }

/-- What a memory that started as `s₀` holds after the writes of the history. -/
def expected (s₀ : Shared ι) (h : History ι) (k : ι × ℤ) : BYTE :=
  (h.written k).getD (s₀.byteAt k)

/-- A write updates the memory. -/
theorem expected_update (s₀ s : Shared ι) (h : History ι) (k : ι × ℤ) (value : BYTE) :
    expected s₀ ⟨s, Function.update h.written k (some value)⟩ =
      Function.update (expected s₀ h) k value := by
  funext l
  rcases eq_or_ne l k with rfl | hne
  · simp only [expected, Function.update_self, Option.getD_some]
  · simp only [expected, Function.update_of_ne hne]

end History

/-- The allowed accesses in any order, from `s₀`. -/
def accessSystem (Allowed : Shared ι → ι × ℤ → Prop) [∀ s k, Decidable (Allowed s k)]
    (s₀ : Shared ι) : Lts (History ι) (Access ι) where
  init h := h = ⟨s₀, fun _ => none⟩
  step h call := if Allowed h.now call.key then h.access call else none

/-! ## What the mapping establishes -/

omit [DecidableEq ι] in
/-- A mapped address is below 2^22, and its page is mapped. -/
theorem Mapped.page {maps : List (MapCall ι)} (hfits : ∀ m ∈ maps, m.Fits) {k : ι × ℤ}
    (h : Mapped maps k) : 0 ≤ k.2 ∧ k.2 < 2 ^ 22 ∧ MappedPage maps k.1 (pagingPgn k.2) := by
  obtain ⟨m, hm, hproc, hle, hlt⟩ := h
  obtain ⟨⟨q, hq⟩, h0, hbelow⟩ := hfits m hm
  simp only [pagingPagesz, pagingCpuBusWidth] at hq hlt hbelow
  have hpgn := pagingPgn_eq h0 (by omega)
  have hpgn' : (pagingPgn k.2 : ℤ) = k.2 / 256 := pagingPgn_eq (by omega) (by omega)
  exact ⟨by omega, by omega, m, hm, hproc, by omega, by omega⟩

omit [DecidableEq ι] in
/-- The pages of the range are in the table. -/
theorem MapCall.Fits.room {m : MapCall ι} (h : m.Fits) :
    pagingPgn m.addr + mapCount m.pgnum m.frames ≤ pagingMaxPgn := by
  obtain ⟨⟨q, hq⟩, h0, hbelow⟩ := h
  have hmax : pagingMaxPgn = 2 ^ 14 := by decide
  simp only [pagingPagesz, pagingCpuBusWidth, MapCall.count] at hq hbelow
  by_cases hcount : mapCount m.pgnum m.frames = 0
  · rw [hcount]
    exact (pagingPgn_lt m.addr).le
  · have hpgn := pagingPgn_eq h0 (by omega)
    omega

/-- **One call** maps its pages to frames of their own. -/
theorem Backed.mapCall {m : MapCall ι} {mm mm' : ι → Mm} {P : ι → ℕ → Prop} {used : List ℤ}
    (h : Backed (fun j => (mm j).pgd) P used) (hfits : m.Fits)
    (hnodup : (fpnFields m.frames).Nodup) (hnew : ∀ f ∈ fpnFields m.frames, f ∉ used)
    (hmap : m.run mm = some mm') :
    Backed (fun j => (mm' j).pgd) (fun j r => P j r ∨ MappedPage [m] j r)
      (fpnFields m.frames ++ used) := by
  obtain ⟨ret, hret⟩ := vmapPageRange_ofList (mm m.proc) hfits.room
  rw [MapCall.run, hret, Option.map_some] at hmap
  obtain rfl := Option.some.inj hmap
  -- The call maps the first frames only, if it is given more than it has pages.
  have htake : (fpnFields (m.frames.take m.pgnum.toNat)).Sublist (fpnFields m.frames) :=
    (List.take_sublist _ _).map _
  have hmapped := h.mapPages m.proc (pagingPgn m.addr) (hnodup.sublist htake)
    fun f hf => hnew f (htake.subset hf)
  apply hmapped.mono
  · intro j r hr
    rcases hr with hr | ⟨m', hm', hproc, hle, hlt⟩
    · exact Or.inl hr
    · obtain rfl := List.mem_singleton.mp hm'
      rw [List.length_take]
      exact Or.inr ⟨hproc.symm, hle, hlt⟩
  · intro f hf
    rcases List.mem_append.mp hf with hf | hf
    · exact List.mem_append_left _ (htake.subset hf)
    · exact List.mem_append_right _ hf

omit [DecidableEq ι] in
theorem fpnFields_framesOf_cons (m : MapCall ι) (ms : List (MapCall ι)) :
    fpnFields (framesOf (m :: ms)) = fpnFields m.frames ++ fpnFields (framesOf ms) := by
  rw [framesOf, List.flatMap_cons, fpnFields, List.map_append]
  rfl

/-- **The calls** map pages to frames of their own, if the entries keep the frame numbers
apart. -/
theorem Backed.mapAll {maps : List (MapCall ι)} {mm mm' : ι → Mm} {P : ι → ℕ → Prop}
    {used : List ℤ} (h : Backed (fun j => (mm j).pgd) P used) (hfits : ∀ m ∈ maps, m.Fits)
    (hnodup : (fpnFields (framesOf maps)).Nodup)
    (hnew : ∀ f ∈ fpnFields (framesOf maps), f ∉ used) (hmap : mapAll mm maps = some mm') :
    Backed (fun j => (mm' j).pgd) (fun j r => P j r ∨ MappedPage maps j r)
      (fpnFields (framesOf maps) ++ used) := by
  induction maps generalizing mm P used with
  | nil =>
      obtain rfl := Option.some.inj hmap
      exact h.mono (fun j r hr => hr.resolve_right fun ⟨m, hm, _⟩ => by cases hm)
        fun f hf => List.mem_append_right _ hf
  | cons m ms ih =>
      rw [fpnFields_framesOf_cons] at hnodup hnew ⊢
      obtain ⟨hnodup₁, hnodup₂, hdisj⟩ := List.nodup_append'.mp hnodup
      obtain ⟨mid, hmid, hmap⟩ := Option.bind_eq_some_iff.mp hmap
      have hone := h.mapCall (hfits m List.mem_cons_self) hnodup₁
        (fun f hf => hnew f (List.mem_append_left _ hf)) hmid
      have hnew' : ∀ f ∈ fpnFields (framesOf ms), f ∉ fpnFields m.frames ++ used := by
        intro f hf hused
        rcases List.mem_append.mp hused with hm' | hused
        · exact hdisj hm' hf
        · exact hnew f (List.mem_append_right _ hf) hused
      have hrest := ih hone (fun m' hm' => hfits m' (List.mem_cons_of_mem _ hm')) hnodup₂ hnew'
        hmap
      apply hrest.mono
      · intro j r hr
        rcases hr with hr | ⟨m', hm', hr⟩
        · exact Or.inl (Or.inl hr)
        · rcases List.mem_cons.mp hm' with rfl | hm'
          · exact Or.inl (Or.inr ⟨m', List.mem_singleton_self _, hr⟩)
          · exact Or.inr ⟨m', hm', hr⟩
      · intro f hf
        simp only [List.mem_append] at hf ⊢
        tauto

/-- One call leaves the other entries alone. -/
theorem MapCall.pgd_run {m : MapCall ι} {mm mm' : ι → Mm} (hfits : m.Fits)
    (hmap : m.run mm = some mm') {i : ι} {q : ℕ} (hout : ¬ MappedPage [m] i q) :
    (mm' i).pgd q = (mm i).pgd q := by
  obtain ⟨ret, hret⟩ := vmapPageRange_ofList (mm m.proc) hfits.room
  rw [MapCall.run, hret, Option.map_some] at hmap
  obtain rfl := Option.some.inj hmap
  by_cases hi : i = m.proc
  · subst hi
    rw [Function.update_self]
    refine pgd_mapPages_of_out fun hq => hout ⟨m, List.mem_singleton_self _, rfl, ?_⟩
    rwa [List.length_take] at hq
  · rw [Function.update_of_ne hi]

/-- **The calls** leave the entries of other pages alone. -/
theorem pgd_mapAll {maps : List (MapCall ι)} {mm mm' : ι → Mm} (hfits : ∀ m ∈ maps, m.Fits)
    (hmap : mapAll mm maps = some mm') {i : ι} {q : ℕ} (hout : ¬ MappedPage maps i q) :
    (mm' i).pgd q = (mm i).pgd q := by
  induction maps generalizing mm with
  | nil =>
      obtain rfl := Option.some.inj hmap
      rfl
  | cons m ms ih =>
      obtain ⟨mid, hmid, hmap⟩ := Option.bind_eq_some_iff.mp hmap
      rw [ih (fun m' hm' => hfits m' (List.mem_cons_of_mem _ hm')) hmap fun ⟨m', hm', hq⟩ =>
        hout ⟨m', List.mem_cons_of_mem _ hm', hq⟩]
      refine MapCall.pgd_run (hfits m List.mem_cons_self) hmid fun ⟨m', hm', hq⟩ => hout ?_
      exact ⟨m, List.mem_cons_self, List.mem_singleton.mp hm' ▸ hq⟩

/-- The mapped pages after the calls on page tables of any contents. -/
theorem backed_of_mapAll {maps : List (MapCall ι)} {mm mm' : ι → Mm}
    (hfits : ∀ m ∈ maps, m.Fits) (hnodup : (fpnFields (framesOf maps)).Nodup)
    (hmap : mapAll mm maps = some mm') :
    Backed (fun j => (mm' j).pgd) (MappedPage maps) (fpnFields (framesOf maps)) := by
  have hnone : Backed (fun j => (mm j).pgd) (fun _ _ => False) [] :=
    ⟨fun _ _ hf => hf.elim, fun _ _ hf => hf.elim, fun _ _ hf => hf.elim,
      fun _ _ _ _ hf => hf.elim⟩
  have hall := hnone.mapAll hfits hnodup (fun _ _ => List.not_mem_nil) hmap
  rw [List.append_nil] at hall
  exact hall.mono (fun _ _ hq => Or.inr hq) fun _ hf => hf

end SimOs.Libmem
