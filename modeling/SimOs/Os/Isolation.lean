import SimOs.Os.Program

/-!
# Processes do not disturb each other

The processes share the devices, so what one of them is given may depend on what others took
before it.  As long as there are frames for all of them it does not: an instruction then
makes of an address space what it would make of it on devices that nobody else uses, and the
address space of a process at any time is the one it would have built alone.

## Main definitions

* `runAlone`: a process runs with nobody else.
* `InsT.effect`: what an instruction makes of an address space if there are frames enough.
* `isolation`: in every run each process has the address space it would have alone.
-/

namespace SimOs

open Libmem

/-- The address space after an instruction, if there are frames enough. -/
def InsT.effect (ins : InsT) (vma : VmArea) (mm : Mm) : Mm :=
  match ins.opcode with
  | .alloc =>
      { mm with
        mmap := .node (placedArea vma ins.arg0.toNat) .null
        symrgtbl := Function.update mm.symrgtbl (CInt.sint 32 ins.arg1.toNat)
          (placedRg vma ins.arg0.toNat) }
  | .free =>
      let rgid := CInt.sint 32 ins.arg0.toNat
      if IsSymbol rgid ∧ (mm.symrgtbl rgid).rgStart < (mm.symrgtbl rgid).rgEnd then
        { mm with
          mmap := .node (withFree vma (mm.symrgtbl rgid)) .null
          symrgtbl := Function.update mm.symrgtbl rgid ⟨0, 0⟩ }
      else mm
  | _ => mm

namespace Libmem.Space

variable {c : Caller} {vma : VmArea} {rgs : List VmRg} {frames : List ℤ}

/-- `liballoc` with frames enough. -/
theorem mm_liballoc (h : Space c vma rgs frames) {size rgid : ℤ} (h0 : 0 ≤ size)
    (hle : size ≤ 2 ^ 31 - 256) (hmany : (reqPages size).toNat ≤ frames.length)
    {r : Ret (Option ℤ) × Caller} (hr : liballoc .zeroed c size rgid = some r) :
    r.2.mm = { c.mm with
      mmap := .node (placedArea vma size) .null
      symrgtbl := Function.update c.mm.symrgtbl (CInt.sint 32 rgid) (placedRg vma size) } := by
  rw [liballoc, sint_size h0 hle, h.alloc_eq, if_pos hmany] at hr
  obtain ⟨-, hr⟩ := Option.ite_none_right_eq_some.mp hr
  obtain rfl := Option.some.inj hr
  rfl

/-- `libfree`. -/
theorem mm_libfree (h : Space c vma rgs frames) (rgid : ℤ) {r : Ret Unit × Caller}
    (hr : libfree c rgid = some r) :
    r.2.mm = if IsSymbol (CInt.sint 32 rgid) ∧
        (c.mm.symrgtbl (CInt.sint 32 rgid)).rgStart < (c.mm.symrgtbl (CInt.sint 32 rgid)).rgEnd then
      { c.mm with
        mmap := .node (withFree vma (c.mm.symrgtbl (CInt.sint 32 rgid))) .null
        symrgtbl := Function.update c.mm.symrgtbl (CInt.sint 32 rgid) ⟨0, 0⟩ }
    else c.mm := by
  obtain ⟨r', hr', hcase⟩ := free_cases (CInt.sint 32 rgid) h.area
  obtain rfl := Option.some.inj (hr.symm.trans hr')
  cases hcase with
  | empty hno =>
      rw [if_neg]
      rintro ⟨hid, hlt⟩
      exact hno.elim (fun hout => hout hid) (fun hge => not_le.mpr hlt hge)
  | moved hid hlt =>
      rw [if_pos ⟨hid, hlt⟩]
      rfl

end Libmem.Space

end SimOs

namespace SimOs.Os

open SimOs.Sched World Libmem

universe u
variable {μ : Type u} {cfg : Config μ} {n : ℕ} {dev : Dev → Memphy} {frames : List ℤ}

/-- Process `p` executes `code` on the devices `dev`, which nobody else uses. -/
def runAlone (dev : Dev → Memphy) (p : ℕ) (code : List InsT) : Option (Shared ℕ) :=
  code.foldlM (fun mem ins => execIns p ins mem) (bootMem dev)

theorem runAlone_concat (dev : Dev → Memphy) (p : ℕ) (code : List InsT) (ins : InsT) :
    runAlone dev p (code ++ [ins]) = (runAlone dev p code).bind fun mem => execIns p ins mem := by
  simp [runAlone, List.foldlM_append]

/-- **The address space after an instruction.** -/
theorem mm_execIns {vma : VmArea} {rgs : List VmRg} {mem mem' : Shared ℕ} {p : ℕ} {ins : InsT}
    (hspace : Space (mem.caller p) vma rgs frames) (habsent : Absent (mem.caller p))
    (hsafe : ins.Safe) (hmany : ins.pages ≤ frames.length) (h : execIns p ins mem = some mem') :
    mem'.mm p = ins.effect vma (mem.mm p) := by
  obtain ⟨c, rfl, hcase⟩ := execIns_cases habsent h
  have hput : (mem.put p c).mm p = c.mm := Function.update_self ..
  rw [hput]
  cases hcase with
  | kept halloc hfree hmemmap =>
      rw [InsT.effect]
      split
      · next hop => exact absurd hop halloc
      · next hop => exact absurd hop hfree
      · rfl
  | alloc hop r hr =>
      have hsize := hsafe.sized hop
      rw [InsT.pages, hop] at hmany
      rw [InsT.effect, hop]
      exact hspace.mm_liballoc (by omega) (by omega) hmany hr
  | free hop r hr =>
      rw [InsT.effect, hop]
      exact hspace.mm_libfree _ hr
  | memmap hmemmap r hr => exact absurd hmemmap hsafe.not_isMemmap

/-! ## The runs -/

/-- What has been asked for is part of what the programs ask for. -/
theorem asked_le {w : World μ n} (h : Sound cfg w) :
    w.asked cfg.ldProcesses.length ≤ ∑ p ∈ Finset.range cfg.ldProcesses.length, cfg.pages p := by
  apply Finset.sum_le_sum
  intro p _
  rw [h.executed p]
  exact ((List.take_sublist _ _).map _).sum_le_sum fun _ _ => Nat.zero_le _

/-- Process `p` alone has the address space that it has in `w`. -/
def Alone (dev : Dev → Memphy) (frames : List ℤ) (w : World (Shared ℕ) n) (p : ℕ) : Prop :=
  ∃ mem, runAlone dev p (w.executed p) = some mem ∧ mem.mm p = w.mem.mm p ∧
    Booted mem (frames.drop ((w.executed p).map InsT.pages).sum)

/-- **An instruction of process `p`**, in the system and alone. -/
theorem Alone.exec {w v : World (Shared ℕ) n} {p : ℕ} {ins : InsT} (h : Alone dev frames w p)
    (hw : Booted w.mem (frames.drop (w.asked cfg.ldProcesses.length))) (hsafe : ins.Safe)
    (hp : p < cfg.ldProcesses.length) (hasked : v.asked cfg.ldProcesses.length ≤ frames.length)
    (hexec : execIns p ins w.mem = some v.mem)
    (hexecuted : v.executed = Function.update w.executed p (w.executed p ++ [ins])) :
    Alone dev frames v p := by
  obtain ⟨mem, hmem, hsame, hbooted⟩ := h
  obtain ⟨vma, rgs, hspace⟩ := hw.space p
  obtain ⟨vma', rgs', hspace'⟩ := hbooted.space p
  obtain rfl : vma' = vma := by
    have hmmap : (mem.mm p).mmap = (w.mem.mm p).mmap := by rw [hsame]
    exact (Chain.node.inj (hspace'.area.mmap.symm.trans (hmmap.trans hspace.area.mmap))).1
  -- There are frames enough, in the system and alone.
  have hnow := asked_update hp hexecuted
  have hown : ((w.executed p).map InsT.pages).sum ≤ w.asked cfg.ldProcesses.length :=
    Finset.single_le_sum (f := fun p => ((w.executed p).map InsT.pages).sum)
      (fun _ _ => Nat.zero_le _) (Finset.mem_range.mpr hp)
  have hmany : ins.pages ≤ (frames.drop (w.asked cfg.ldProcesses.length)).length := by
    rw [List.length_drop]
    omega
  have hmany' : ins.pages ≤ (frames.drop ((w.executed p).map InsT.pages).sum).length := by
    rw [List.length_drop]
    omega
  obtain ⟨mem', hmem'⟩ :=
    Option.isSome_iff_exists.mp (execIns_isSome hspace' (hbooted.absent p) hsafe)
  obtain ⟨c, hc, htakes⟩ := execIns_takes hspace' (hbooted.absent p) hsafe.sized hmem'
  have hlog : v.executed p = w.executed p ++ [ins] := by rw [hexecuted, Function.update_self]
  refine ⟨mem', ?_, ?_, ?_⟩
  · rw [hlog, runAlone_concat, hmem]
    exact hmem'
  · rw [mm_execIns hspace' (hbooted.absent p) hsafe hmany' hmem',
      mm_execIns hspace (hw.absent p) hsafe hmany hexec, hsame]
  · have hnext := hbooted.put htakes
    rw [List.drop_drop] at hnext
    rw [hlog, hc, List.map_append, List.sum_append, List.map_singleton, List.sum_singleton]
    exact hnext

/-- **One step.** -/
theorem Alone.step {w v : World (Shared ℕ) n} {l : Label n}
    (hsafe : ∀ p, ∀ ins ∈ cfg.code p, ins.Safe) (hw : Ledger cfg frames w)
    (hasked : v.asked cfg.ldProcesses.length ≤ frames.length)
    (h : ∀ p, Alone dev frames w p) (hstep : osStep cfg.withMemory w l = some v) (p : ℕ) :
    Alone dev frames v p := by
  have halone := h p
  rcases osStep_mem hstep with ⟨hmem, hexecuted⟩ | ⟨q, ins, hins, hexec, hexecuted⟩
  · rw [Alone, hmem, hexecuted]
    exact halone
  · have hloaded : q < cfg.ldProcesses.length ∧ ins ∈ cfg.code q := lt_of_code hins
    obtain ⟨hq, hcode⟩ := hloaded
    have hone := hsafe q ins hcode
    by_cases hpq : p = q
    · subst hpq
      exact halone.exec hw.booted hone hq hasked hexec hexecuted
    · obtain ⟨vma, rgs, hspace⟩ := hw.booted.space q
      obtain ⟨c, hc, -⟩ := execIns_takes hspace (hw.booted.absent q) hone.sized hexec
      rw [Alone, hexecuted, hc, Function.update_of_ne hpq]
      simp only [Shared.put, Function.update_of_ne hpq]
      exact halone

/-- **Isolation**: if the programs are safe and RAM has the frames that they ask for, then
whatever the interleaving, every process has at any time the address space that it would have
after the same instructions if it ran alone. -/
theorem isolation {w : World (Shared ℕ) cfg.numCpus} (hdev : Boots dev frames)
    (hsafe : ∀ p, ∀ ins ∈ cfg.code p, ins.Safe)
    (hmany : ∑ p ∈ Finset.range cfg.ldProcesses.length, cfg.pages p ≤ frames.length)
    (h : (machine cfg dev).Reachable w) (p : ℕ) :
    ∃ mem, runAlone dev p (w.executed p) = some mem ∧ mem.mm p = w.mem.mm p := by
  have hsized : ∀ p, ∀ ins ∈ cfg.code p, ins.Sized := fun p ins hins =>
    (hsafe p ins hins).sized
  have hall : ∀ p, Alone dev frames w p := by
    refine h.invariant_of (P := fun w => ∀ p, Alone dev frames w p) ?_ ?_
    · rintro w rfl p
      exact ⟨bootMem dev, rfl, rfl, booted_bootMem hdev⟩
    · intro w l v hw hP hstep
      have hsound : Sound cfg.withMemory v :=
        reachable_sound ((machine_simulates cfg dev).reachable (hw.step hstep))
      exact Alone.step hsafe (reachable_ledger hdev hsized hw) ((asked_le hsound).trans hmany) hP
        hstep
  obtain ⟨mem, hmem, hsame, -⟩ := hall p
  exact ⟨mem, hmem, hsame⟩

/-- Two processes on two CPUs, which ask for four frames. -/
abbrev twoAllocs : Config Unit where
  timeSlot := 2
  numCpus := 2
  ldProcesses := [⟨1, [⟨.alloc, 300, 0, 0, 0⟩, ⟨.alloc, 10, 1, 0, 0⟩]⟩,
    ⟨2, [⟨.alloc, 100, 0, 0, 0⟩]⟩]
  exec _ _ _ := some ()

/-- Four frames. -/
theorem boots_four : Boots (freshDevs 1024) (Memphy.allFrames 4) :=
  boots_freshDevs (by decide) (by decide)

theorem isolation_twoAllocs :
    ∃ w, (machine twoAllocs (freshDevs 1024)).Reachable w ∧ w.finished = [1, 0] ∧
      ∀ p, ∃ mem, runAlone (freshDevs 1024) p (w.executed p) = some mem ∧
        mem.mm p = w.mem.mm p := by
  have hrun : ((machine twoAllocs (freshDevs 1024)).run (World.init 2 (bootMem (freshDevs 1024)))
      (List.replicate 9 .loader ++ List.replicate 7 (.cpu 0) ++ List.replicate 6 (.cpu 1) ++
        List.replicate 6 (.cpu 0))).any (fun w => w.finished = [1, 0]) = true := by
    decide +kernel
  have hsafe : ∀ p, ∀ ins ∈ twoAllocs.code p, ins.Safe := by
    intro p
    match p with
    | 0 => exact (by decide : ∀ ins ∈ twoAllocs.code 0, ins.Safe)
    | 1 => exact (by decide : ∀ ins ∈ twoAllocs.code 1, ins.Safe)
    | p + 2 => exact fun ins hins => absurd hins List.not_mem_nil
  obtain ⟨w, hw, hfin⟩ := (Option.any_eq_true _ _).mp hrun
  have hreach : (machine twoAllocs (freshDevs 1024)).Reachable w := ⟨_, _, rfl, hw⟩
  exact ⟨w, hreach, of_decide_eq_true hfin,
    isolation boots_four hsafe (by decide +kernel) hreach⟩

end SimOs.Os
