import SimOs.Lib.Transition
import SimOs.Mm.Memphy
import Mathlib.Data.Multiset.AddSub

/-!
# Who has a frame

A frame of a device is on the free list, or a client got it and has not put it back.
`MEMPHY_format` puts every frame on the list, and the two operations only move frames
between the list and the clients.  So a frame is never handed out twice, as long as
the clients put back what they got.

## Main definitions

* `allFrames`: the frames of a formatted device.
* `Custody`, `custodySystem`: a device together with what its clients have.
* `Partitioned`: every frame is in one place.
* `frames_never_shared`: what it means for every sequence of operations.
-/

namespace SimOs.Memphy

/-- The frames `0` to `n - 1`, in the order in which `MEMPHY_format` links them. -/
def allFrames (n : ℕ) : List ℤ := (List.range n).map fun k : ℕ => (k : ℤ)

theorem mem_allFrames {n : ℕ} {fpn : ℤ} : fpn ∈ allFrames n ↔ 0 ≤ fpn ∧ fpn < n := by
  simp only [allFrames, List.mem_map, List.mem_range]
  constructor
  · rintro ⟨k, hk, rfl⟩
    omega
  · rintro ⟨h0, hlt⟩
    exact ⟨fpn.toNat, by omega, Int.toNat_of_nonneg h0⟩

@[simp] theorem length_allFrames (n : ℕ) : (allFrames n).length = n := by simp [allFrames]

theorem nodup_allFrames (n : ℕ) : (allFrames n).Nodup :=
  List.nodup_range.map fun _ _ h => Int.ofNat.inj h

/-- **`MEMPHY_format`** links all frames of a device.  If there is one, it does not write
the link of its node. -/
theorem freeFpList_format {fpNext : Chain ℤ} (mp : Memphy) {pagesz : ℤ} {n : ℕ}
    (hn : mp.maxsz / pagesz = n) (hpos : 0 < n) (hnext : n = 1 → fpNext = .null) :
    (mp.format fpNext pagesz).2.freeFpList = Chain.ofList (allFrames n) := by
  have hsplit : allFrames n = 0 :: laterFrames n := by
    obtain ⟨m, rfl⟩ := Nat.exists_eq_succ_of_ne_zero hpos.ne'
    simp [allFrames, laterFrames, List.range_succ_eq_map]
  have hsome : ¬ (n : ℤ) ≤ 0 := by omega
  simp only [format, hn, if_neg hsome, Int.toNat_natCast, hsplit, Chain.ofList_cons]
  by_cases hone : (n : ℤ) ≤ 1
  · obtain rfl : n = 1 := by omega
    rw [if_pos hone, hnext rfl]
    rfl
  · rw [if_neg hone]

/-- **`init_memphy`** does so for a RAM of any size.  It reads a link that it has not written
if the RAM has no frame, or one. -/
theorem freeFpList_initMemphy {fpNext : Chain ℤ} {old : Memphy} {maxSize : ℤ} (randomflg : Bool)
    (h0 : 0 ≤ maxSize) (hold : maxSize < 256 → old.freeFpList = .null)
    (hnext : maxSize < 512 → fpNext = .null) :
    (initMemphy fpNext old maxSize randomflg).freeFpList =
      Chain.ofList (allFrames (maxSize / 256).toNat) := by
  have hpage : (pagingPagesz : ℤ) = 256 := rfl
  have hn : maxSize / 256 = ((maxSize / 256).toNat : ℤ) := (Int.toNat_of_nonneg (by omega)).symm
  rw [initMemphy, hpage]
  by_cases hnone : maxSize < 256
  · have hzero : maxSize / 256 = 0 := by omega
    simp only [format, hzero]
    exact hold hnone
  · exact freeFpList_format { old with storage := fun _ => 0, maxsz := maxSize } hn (by omega)
      fun hone => hnext (by omega)

theorem maxsz_initMemphy (fpNext : Chain ℤ) (old : Memphy) (maxSize : ℤ) (randomflg : Bool) :
    (initMemphy fpNext old maxSize randomflg).maxsz = maxSize := by
  simp only [initMemphy, format]
  split
  · rfl
  · rfl

/-- A device and the frames its clients have. -/
structure Custody where
  mp : Memphy
  outstanding : Multiset ℤ

/-- An operation of a client. -/
inductive FrameCall
  | getFreefp
  | putFreefp (fpn : ℤ)
  deriving DecidableEq

/-- The clients put back only what they have. -/
def frameCall (c : Custody) : FrameCall → Option Custody
  | .getFreefp => c.mp.getFreefp.map fun r =>
      match r with
      | (.ok fpn, mp) => ⟨mp, fpn ::ₘ c.outstanding⟩
      | (.err, mp) => ⟨mp, c.outstanding⟩
  | .putFreefp fpn =>
      if fpn ∈ c.outstanding then some ⟨c.mp.putFreefp fpn, c.outstanding.erase fpn⟩ else none

/-- All sequences of operations on a device whose free list is that of `n` frames. -/
def custodySystem (n : ℕ) : Lts Custody FrameCall where
  init c := c.mp.freeFpList = Chain.ofList (allFrames n) ∧ c.outstanding = 0
  step := frameCall

/-- The free list and what the clients have are together all frames. -/
def Partitioned (n : ℕ) (c : Custody) : Prop :=
  ∃ free, c.mp.freeFpList = Chain.ofList free ∧
    (free : Multiset ℤ) + c.outstanding = (allFrames n : Multiset ℤ)

/-- **One operation** keeps every frame in one place. -/
theorem Partitioned.call {n : ℕ} {c c' : Custody} (h : Partitioned n c) {call : FrameCall}
    (hcall : frameCall c call = some c') : Partitioned n c' := by
  obtain ⟨free, hfree, hsum⟩ := h
  cases call with
  | getFreefp =>
      cases free with
      | nil =>
          rw [frameCall, getFreefp_nil hfree] at hcall
          obtain rfl := Option.some.inj hcall
          exact ⟨[], hfree, hsum⟩
      | cons fpn rest =>
          rw [frameCall, getFreefp_cons hfree] at hcall
          obtain rfl := Option.some.inj hcall
          refine ⟨rest, rfl, ?_⟩
          rw [← hsum, ← Multiset.cons_coe, Multiset.add_cons, Multiset.cons_add]
  | putFreefp fpn =>
      rw [frameCall] at hcall
      split at hcall
      · next hout =>
          obtain rfl := Option.some.inj hcall
          refine ⟨fpn :: free, ?_, ?_⟩
          · rw [putFreefp, hfree, Chain.ofList_cons]
          · rw [← hsum, ← Multiset.cons_coe, Multiset.cons_add, ← Multiset.add_cons,
              Multiset.cons_erase hout]
      · cases hcall

/-- **Every sequence of operations** does. -/
theorem reachable_partitioned {n : ℕ} {c : Custody} (h : (custodySystem n).Reachable c) :
    Partitioned n c := by
  refine h.invariant (P := Partitioned n) ?_ fun _ _ _ hpart hcall => hpart.call hcall
  rintro c ⟨hlist, hnone⟩
  exact ⟨allFrames n, hlist, by rw [hnone, add_zero]⟩

/-- No frame is in two places, or twice in one. -/
theorem Partitioned.nodup {n : ℕ} {free : List ℤ} {outstanding : Multiset ℤ}
    (hsum : (free : Multiset ℤ) + outstanding = (allFrames n : Multiset ℤ)) :
    ((free : Multiset ℤ) + outstanding).Nodup := by
  rw [hsum, Multiset.coe_nodup]
  exact nodup_allFrames n

section Partitioned

variable {n : ℕ} {mp : Memphy} {free : List ℤ} {outstanding : Multiset ℤ}
  (hfree : mp.freeFpList = Chain.ofList free)
  (hsum : (free : Multiset ℤ) + outstanding = (allFrames n : Multiset ℤ))

include hfree hsum

/-- A frame that `MEMPHY_get_freefp` returns is one of the device, and nobody has it. -/
theorem fresh_of_getFreefp {fpn : ℤ} {mp' : Memphy} (hok : mp.getFreefp = some (.ok fpn, mp')) :
    0 ≤ fpn ∧ fpn < n ∧ fpn ∉ outstanding := by
  have hnodup := Partitioned.nodup hsum
  cases free with
  | nil =>
      rw [getFreefp_nil hfree] at hok
      cases hok
  | cons f rest =>
      rw [getFreefp_cons hfree] at hok
      obtain ⟨hf, -⟩ := Prod.mk.inj (Option.some.inj hok)
      obtain rfl := Ret.ok.inj hf
      have hmem : f ∈ (allFrames n : Multiset ℤ) := by
        rw [← hsum, ← Multiset.cons_coe, Multiset.cons_add]
        exact Multiset.mem_cons_self f _
      obtain ⟨h0, hlt⟩ := mem_allFrames.mp (Multiset.mem_coe.mp hmem)
      rw [← Multiset.cons_coe, Multiset.cons_add, Multiset.nodup_cons] at hnodup
      exact ⟨h0, hlt, fun hout => hnodup.1 (Multiset.mem_add.mpr (Or.inr hout))⟩

/-- `MEMPHY_get_freefp` fails exactly if the clients have all frames. -/
theorem getFreefp_err_iff :
    (∃ mp', mp.getFreefp = some (.err, mp')) ↔ outstanding = (allFrames n : Multiset ℤ) := by
  rw [← hsum]
  cases free with
  | nil =>
      rw [getFreefp_nil hfree]
      simp
  | cons f rest =>
      rw [getFreefp_cons hfree]
      constructor
      · rintro ⟨mp', herr⟩
        cases herr
      · intro hall
        have hcard := congrArg Multiset.card hall
        simp at hcard

end Partitioned

/-- **Frames are never handed out twice**: whatever the clients have got and put back,
`MEMPHY_get_freefp` returns a frame of the device that nobody has, it fails exactly if
they have all `n` frames, and the free list and what they have are together the frames
`0` to `n - 1`, each once. -/
theorem frames_never_shared {n : ℕ} {c : Custody} (h : (custodySystem n).Reachable c) :
    (∀ fpn mp, c.mp.getFreefp = some (.ok fpn, mp) →
      0 ≤ fpn ∧ fpn < n ∧ fpn ∉ c.outstanding) ∧
    ((∃ mp, c.mp.getFreefp = some (.err, mp)) ↔ c.outstanding = (allFrames n : Multiset ℤ)) ∧
    ∃ free, c.mp.freeFpList = Chain.ofList free ∧
      (free : Multiset ℤ) + c.outstanding = (allFrames n : Multiset ℤ) ∧
      ((free : Multiset ℤ) + c.outstanding).Nodup := by
  obtain ⟨free, hfree, hsum⟩ := reachable_partitioned h
  refine ⟨?_, getFreefp_err_iff hfree hsum, free, hfree, hsum, Partitioned.nodup hsum⟩
  intro fpn mp hok
  exact fresh_of_getFreefp hfree hsum hok

/-- A client that gets frame after frame has the first frames of the list. -/
theorem run_getFreefp (n : ℕ) {mp : Memphy} (got : List ℤ) {rest : List ℤ}
    (outstanding : Multiset ℤ) (h : mp.freeFpList = Chain.ofList (got ++ rest)) :
    (custodySystem n).run ⟨mp, outstanding⟩ (List.replicate got.length .getFreefp) =
      some ⟨{ mp with freeFpList := Chain.ofList rest }, got + outstanding⟩ := by
  induction got generalizing mp outstanding with
  | nil =>
      rw [List.nil_append] at h
      rw [List.length_nil, List.replicate_zero, Lts.run_nil, ← h, Multiset.coe_nil, zero_add]
  | cons fpn got ih =>
      rw [List.cons_append] at h
      have hone : (custodySystem n).step ⟨mp, outstanding⟩ .getFreefp =
          some ⟨{ mp with freeFpList := Chain.ofList (got ++ rest) }, fpn ::ₘ outstanding⟩ := by
        simp only [custodySystem, frameCall, getFreefp_cons h, Option.map_some]
      rw [List.length_cons, List.replicate_succ, Lts.run_cons_of_step _ hone, ih _ rfl,
        ← Multiset.cons_coe, Multiset.cons_add, Multiset.add_cons]

/-- A device of three frames, formatted. -/
def threeFrames : Memphy := initMemphy .null ⟨fun _ => 0, 0, false, 0, .null⟩ 768 true

theorem frames_never_shared_three :
    ∃ c, (custodySystem 3).run ⟨threeFrames, 0⟩ [.getFreefp, .getFreefp, .putFreefp 0] =
        some c ∧
      ∀ fpn mp, c.mp.getFreefp = some (.ok fpn, mp) →
        0 ≤ fpn ∧ fpn < 3 ∧ fpn ∉ c.outstanding := by
  have hrun : ((custodySystem 3).run ⟨threeFrames, 0⟩
      [.getFreefp, .getFreefp, .putFreefp 0]).isSome := by decide +kernel
  obtain ⟨c, hc⟩ := Option.isSome_iff_exists.mp hrun
  exact ⟨c, hc, (frames_never_shared (n := 3) ⟨_, _, ⟨rfl, rfl⟩, hc⟩).1⟩

end SimOs.Memphy
