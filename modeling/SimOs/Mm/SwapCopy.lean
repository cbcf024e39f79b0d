import SimOs.Lib.Transition
import SimOs.Mm.Exchange

/-!
# Out to the swap and back

`__swap_cp_page` copies a frame byte by byte, between two devices or within one.  The
destination frame becomes what the source frame was, and no other byte changes.  So a page
that was copied to a swap frame survives whatever is written to RAM, and to swap outside
that frame: copied back, into any frame, it is the page that it was.

## Main definitions

* `PageCopied`: what a copy does to the two devices.
* `writeSystem`: sequences of `MEMPHY_write` that spare a swap frame.
* `swapCpPage_restores`: out and back is the identity.
-/

namespace SimOs

/-- The addresses of a frame. -/
def InFrame (fpn addr : ℤ) : Prop :=
  fpn * pagingPagesz ≤ addr ∧ addr < fpn * pagingPagesz + pagingPagesz

instance (fpn addr : ℤ) : Decidable (InFrame fpn addr) := inferInstanceAs (Decidable (_ ∧ _))

theorem inFrame_cell (fpn : ℤ) {k : ℕ} (hk : k < pagingPagesz) :
    InFrame fpn (fpn * pagingPagesz + k) := by
  constructor
  · omega
  · omega

/-- The devices are of the same size and kind. -/
structure SameDevices (dev dev' : Dev → Memphy) : Prop where
  maxsz : ∀ d, (dev' d).maxsz = (dev d).maxsz
  rdmflg : ∀ d, (dev' d).rdmflg = (dev d).rdmflg

theorem SameDevices.random {dev dev' : Dev → Memphy} (h : SameDevices dev dev') {d : Dev}
    (hd : (dev d).Random) : (dev' d).Random :=
  ⟨(h.rdmflg d).trans hd.rdmflg, (h.maxsz d).symm ▸ hd.maxsz_lt⟩

theorem SameDevices.frameInside {dev dev' : Dev → Memphy} (h : SameDevices dev dev') {d : Dev}
    {fpn : ℤ} (hin : (dev d).FrameInside fpn) : (dev' d).FrameInside fpn :=
  ⟨hin.1, (h.maxsz d).symm ▸ hin.2⟩

theorem SameDevices.trans {dev₁ dev₂ dev₃ : Dev → Memphy} (h : SameDevices dev₁ dev₂)
    (h' : SameDevices dev₂ dev₃) : SameDevices dev₁ dev₃ :=
  ⟨fun d => (h'.maxsz d).trans (h.maxsz d), fun d => (h'.rdmflg d).trans (h.rdmflg d)⟩

/-- The destination frame is what the source frame was, and nothing else has changed. -/
structure PageCopied (dev dev' : Dev → Memphy) (mpsrc : Dev) (srcfpn : ℤ) (mpdst : Dev)
    (dstfpn : ℤ) : Prop extends SameDevices dev dev' where
  copied : ∀ k : ℕ, k < pagingPagesz → (dev' mpdst).storage (dstfpn * pagingPagesz + k) =
    (dev mpsrc).storage (srcfpn * pagingPagesz + k)
  other : ∀ d addr, ¬ (d = mpdst ∧ InFrame dstfpn addr) →
    (dev' d).storage addr = (dev d).storage addr
  freeFpList : ∀ d, (dev' d).freeFpList = (dev d).freeFpList

variable {dev : Dev → Memphy}

/-- **A copy**, between two devices or within one. -/
theorem swapCpPage_copies {mpsrc mpdst : Dev} {srcfpn dstfpn : ℤ} (hsrc : (dev mpsrc).Random)
    (hdst : (dev mpdst).Random) (hsrcIn : (dev mpsrc).FrameInside srcfpn)
    (hdstIn : (dev mpdst).FrameInside dstfpn) :
    ∃ dev', swapCpPage dev mpsrc srcfpn mpdst dstfpn = some dev' ∧
      PageCopied dev dev' mpsrc srcfpn mpdst dstfpn := by
  refine ⟨_, swapCpPage_eq hsrc hdst hsrcIn hdstIn, ⟨?_, ?_⟩, ?_, ?_, ?_⟩
  case refine_3 =>
    intro k hk
    rw [Function.update_self]
    exact Copy.copied_inside _ _ _ _ hk
  case refine_4 =>
    intro d addr hout
    by_cases hd : d = mpdst
    · subst hd
      rw [Function.update_self]
      apply Copy.copied_outside
      simp only [InFrame, true_and] at hout
      omega
    · rw [Function.update_of_ne hd]
  all_goals
    intro d
    by_cases hd : d = mpdst
    · subst hd
      rw [Function.update_self]
      rfl
    · rw [Function.update_of_ne hd]

/-! ## Writes in between -/

/-- A call of `MEMPHY_write` on one of the devices, but not on the cells of swap frame `s`. -/
def spareWrite (s : ℤ) (dev : Dev → Memphy) (w : Dev × ℤ × BYTE) : Option (Dev → Memphy) :=
  if w.1 = .activeMswp ∧ InFrame s w.2.1 then none
  else ((dev w.1).write w.2.1 w.2.2).map fun r => Function.update dev w.1 r.2

/-- All sequences of such calls. -/
def writeSystem (s : ℤ) : Lts (Dev → Memphy) (Dev × ℤ × BYTE) where
  init dev := ∀ d, (dev d).Random
  step := spareWrite s

/-- The devices are as they were made, and swap frame `s` holds the same bytes. -/
structure Spared (s : ℤ) (dev dev' : Dev → Memphy) : Prop extends SameDevices dev dev' where
  frame : ∀ addr, InFrame s addr →
    (dev' .activeMswp).storage addr = (dev .activeMswp).storage addr

theorem Spared.refl (s : ℤ) (dev : Dev → Memphy) : Spared s dev dev :=
  ⟨⟨fun _ => rfl, fun _ => rfl⟩, fun _ _ => rfl⟩

/-- **One write.** -/
theorem Spared.write {s : ℤ} {dev' dev'' : Dev → Memphy} (h : Spared s dev dev')
    {w : Dev × ℤ × BYTE} (hw : spareWrite s dev' w = some dev'') : Spared s dev dev'' := by
  rw [spareWrite] at hw
  split at hw
  · cases hw
  · next hspare =>
      obtain ⟨⟨r, mp⟩, hwrite, rfl⟩ := Option.map_eq_some_iff.mp hw
      obtain ⟨-, rfl⟩ | ⟨-, -, rfl⟩ := Memphy.write_eq_some hwrite
      · rwa [Function.update_eq_self]
      · refine ⟨⟨?_, ?_⟩, ?_⟩
        · intro d
          rw [← h.maxsz d]
          by_cases hd : d = w.1
          · rw [hd, Function.update_self]
          · rw [Function.update_of_ne hd]
        · intro d
          rw [← h.rdmflg d]
          by_cases hd : d = w.1
          · rw [hd, Function.update_self]
          · rw [Function.update_of_ne hd]
        · intro addr haddr
          rw [← h.frame addr haddr]
          by_cases hd : Dev.activeMswp = w.1
          · have hne : addr ≠ w.2.1 := by
              intro heq
              exact hspare ⟨hd.symm, heq ▸ haddr⟩
            rw [hd, Function.update_self]
            exact Function.update_of_ne hne _ _
          · rw [Function.update_of_ne hd]

/-- **Any sequence of writes.** -/
theorem spared_run {s : ℤ} {dev' : Dev → Memphy} {writes : List (Dev × ℤ × BYTE)}
    (h : (writeSystem s).run dev writes = some dev') : Spared s dev dev' :=
  (writeSystem s).run_invariant (P := Spared s dev) (fun _ _ _ hs hw => hs.write hw) h
    (Spared.refl s dev)

/-- **Out and back restores the page**: on random access devices `__swap_cp_page` makes the
destination frame the former source frame and changes nothing else.  So a RAM frame `f` that
was copied to swap frame `s`, and after any writes that spare `s` is copied back to a RAM
frame `g`, leaves in `g` what `f` held at first. -/
theorem swapCpPage_restores (hrandom : ∀ d, (dev d).Random) :
    (∀ mpsrc srcfpn mpdst dstfpn, (dev mpsrc).FrameInside srcfpn →
      (dev mpdst).FrameInside dstfpn → ∃ dev', swapCpPage dev mpsrc srcfpn mpdst dstfpn =
        some dev' ∧ PageCopied dev dev' mpsrc srcfpn mpdst dstfpn) ∧
    ∀ f s g, (dev .mram).FrameInside f → (dev .activeMswp).FrameInside s →
      (dev .mram).FrameInside g →
      ∃ dev₁, swapCpPage dev .mram f .activeMswp s = some dev₁ ∧
        ∀ writes dev₂, (writeSystem s).run dev₁ writes = some dev₂ →
          ∃ dev₃, swapCpPage dev₂ .activeMswp s .mram g = some dev₃ ∧
            ∀ k : ℕ, k < pagingPagesz → (dev₃ .mram).storage (g * pagingPagesz + k) =
              (dev .mram).storage (f * pagingPagesz + k) := by
  constructor
  · intro mpsrc srcfpn mpdst dstfpn hsrcIn hdstIn
    exact swapCpPage_copies (hrandom mpsrc) (hrandom mpdst) hsrcIn hdstIn
  · intro f s g hf hs hg
    obtain ⟨dev₁, hout, hcopied⟩ :=
      swapCpPage_copies (hrandom .mram) (hrandom .activeMswp) hf hs
    refine ⟨dev₁, hout, ?_⟩
    intro writes dev₂ hrun
    have hspared := spared_run hrun
    have hsame := hcopied.toSameDevices.trans hspared.toSameDevices
    obtain ⟨dev₃, hback, hcopied'⟩ := swapCpPage_copies (hsame.random (hrandom .activeMswp))
      (hsame.random (hrandom .mram)) (hsame.frameInside hs) (hsame.frameInside hg)
    refine ⟨dev₃, hback, ?_⟩
    intro k hk
    rw [hcopied'.copied k hk, hspared.frame _ (inFrame_cell s hk), hcopied.copied k hk]

/-- Two devices of two frames. -/
def smallDevices : Dev → Memphy
  | .mram => ⟨fun addr => BitVec.ofInt 8 addr, 512, true, 0, .null⟩
  | .activeMswp => ⟨fun _ => 0, 512, true, 0, .null⟩

theorem swapCpPage_restores_small :
    ∃ dev₁ dev₂ dev₃, swapCpPage smallDevices .mram 0 .activeMswp 1 = some dev₁ ∧
      (writeSystem 1).run dev₁ [(.mram, 3, 7), (.activeMswp, 0, 9)] = some dev₂ ∧
      swapCpPage dev₂ .activeMswp 1 .mram 1 = some dev₃ ∧
      ∀ k : ℕ, k < 256 → (dev₃ .mram).storage (256 + k) = BitVec.ofInt 8 (0 + k) := by
  have hrandom : ∀ d, (smallDevices d).Random := by
    intro d
    cases d with
    | mram => exact ⟨rfl, by decide⟩
    | activeMswp => exact ⟨rfl, by decide⟩
  obtain ⟨dev₁, hout, hback⟩ := (swapCpPage_restores hrandom).2 0 1 1 (by decide) (by decide)
    (by decide)
  have hwrites : ((swapCpPage smallDevices .mram 0 .activeMswp 1).bind fun dev =>
      (writeSystem 1).run dev [(.mram, 3, 7), (.activeMswp, 0, 9)]).isSome := by decide +kernel
  obtain ⟨dev₂, hrun⟩ := Option.isSome_iff_exists.mp hwrites
  rw [hout, Option.bind_some] at hrun
  obtain ⟨dev₃, hin, hframe⟩ := hback _ dev₂ hrun
  exact ⟨dev₁, dev₂, dev₃, hout, hrun, hin, hframe⟩

end SimOs
