import SimOs.Mm.Frames

/-!
# The free list of a new device

`MEMPHY_format` makes a first node for frame 0, and links a node for each later frame
behind the last one.  The link of the first node is set when the second is made, so on a
device of one page it is what `malloc` found there.  A device smaller than a page has no
first node, and its `free_fp_list` is left as it was.

## Main definitions

* `formatLoop`: the loop over the nodes, and `format_eq` what it leaves.
* `getFrames`: calls of `MEMPHY_get_freefp` in a row.
* `HasItsFrames`: what a formatted device is.
* `hasItsFrames_iff`: when `init_memphy` makes one.
-/

namespace SimOs.Memphy

/-- The loop of `MEMPHY_format` with `n` trips to go.  The nodes up to `fst` have the
frames `fpns`, and `link` is what the `fp_next` of `fst` holds. -/
def formatLoop : ℕ → ℤ → List ℤ → Chain ℤ → Chain ℤ
  | 0, _, fpns, link => (Chain.ofList fpns).append link
  | n + 1, iter, fpns, _ => formatLoop n (iter + 1) (fpns ++ [iter]) .null

/-- The loop ends the list with the node that it made last. -/
theorem formatLoop_null (n : ℕ) (iter : ℤ) (fpns : List ℤ) :
    formatLoop n iter fpns .null =
      Chain.ofList (fpns ++ (List.range n).map fun k : ℕ => (k : ℤ) + iter) := by
  induction n generalizing iter fpns with
  | zero => simp [formatLoop]
  | succ n ih =>
      have hshift : ((fun k : ℕ => (k : ℤ) + iter) ∘ Nat.succ) =
          fun k : ℕ => (k : ℤ) + (iter + 1) := by
        ext k
        simp only [Function.comp_apply, Nat.succ_eq_add_one, Nat.cast_add, Nat.cast_one]
        omega
      rw [formatLoop, ih, List.range_succ_eq_map, List.map_cons, List.map_map, hshift]
      simp

/-- **`MEMPHY_format`** is this loop, behind the node of frame 0. -/
theorem format_eq (fpNext : Chain ℤ) (mp : Memphy) (pagesz : ℤ) :
    mp.format fpNext pagesz =
      if mp.maxsz / pagesz ≤ 0 then (.err, mp)
      else (.ok (), { mp with
        freeFpList := formatLoop ((mp.maxsz / pagesz).toNat - 1) 1 [0] fpNext }) := by
  rw [format]
  by_cases hnone : mp.maxsz / pagesz ≤ 0
  · simp only [if_pos hnone]
  · simp only [if_neg hnone]
    by_cases hone : mp.maxsz / pagesz ≤ 1
    · have hzero : (mp.maxsz / pagesz).toNat - 1 = 0 := by omega
      rw [if_pos hone, hzero]
      rfl
    · obtain ⟨n, hn⟩ : ∃ n, (mp.maxsz / pagesz).toNat - 1 = n + 1 :=
        ⟨(mp.maxsz / pagesz).toNat - 2, by omega⟩
      rw [if_neg hone, hn, laterFrames, hn]
      -- the first trip sets the link of the first node
      have hfirst : formatLoop (n + 1) 1 [0] fpNext = formatLoop (n + 1) 1 [0] .null := rfl
      rw [hfirst, formatLoop_null]
      rfl

/-- The results of `n` calls of `MEMPHY_get_freefp` in a row. -/
def getFrames : ℕ → Memphy → Option (List (Ret ℤ) × Memphy)
  | 0, mp => some ([], mp)
  | n + 1, mp =>
      mp.getFreefp.bind fun r => (getFrames n r.2).map fun rs => (r.1 :: rs.1, rs.2)

/-- The calls take the list from its front, and the next one fails. -/
theorem getFrames_ofList (frames : List ℤ) {mp : Memphy}
    (h : mp.freeFpList = Chain.ofList frames) :
    getFrames (frames.length + 1) mp =
      some (frames.map .ok ++ [.err], { mp with freeFpList := .null }) := by
  induction frames generalizing mp with
  | nil =>
      have hnull : { mp with freeFpList := .null } = mp := by
        rw [Chain.ofList_nil] at h
        rw [← h]
      rw [List.length_nil, getFrames, getFreefp_nil h, hnull]
      rfl
  | cons fpn frames ih =>
      rw [List.length_cons, getFrames, getFreefp_cons h, Option.bind_some, ih rfl]
      rfl

/-- The device has exactly the frames `0` to `n - 1`: they are its free list, which ends,
and the calls that take them succeed `n` times and then fail. -/
structure HasItsFrames (mp : Memphy) (n : ℕ) : Prop where
  freeFpList : mp.freeFpList = Chain.ofList (allFrames n)
  taken : getFrames (n + 1) mp =
    some ((allFrames n).map .ok ++ [.err], { mp with freeFpList := .null })

theorem hasItsFrames_of_freeFpList {mp : Memphy} {n : ℕ}
    (h : mp.freeFpList = Chain.ofList (allFrames n)) : HasItsFrames mp n := by
  have htaken := getFrames_ofList (allFrames n) h
  rw [length_allFrames] at htaken
  exact ⟨h, htaken⟩

/-- Without a page the list of the old structure stays, and with one page the link of the
new node. -/
theorem freeFpList_initMemphy_small (fpNext : Chain ℤ) (old : Memphy) {maxSize : ℤ}
    (randomflg : Bool) (h0 : 0 ≤ maxSize) (hlt : maxSize < 512) :
    (initMemphy fpNext old maxSize randomflg).freeFpList =
      if maxSize < 256 then old.freeFpList else .node 0 fpNext := by
  have hpage : (pagingPagesz : ℤ) = 256 := rfl
  rw [initMemphy, hpage]
  by_cases hnone : maxSize < 256
  · have hzero : maxSize / 256 = 0 := by omega
    simp [format, hzero, hnone]
  · have hone : maxSize / 256 = 1 := by omega
    simp [format, hone, hnone]

variable {fpNext : Chain ℤ} {old : Memphy} {maxSize : ℤ}

/-- **When `init_memphy` gives a device its frames**: always on two pages or more; on one
page if `malloc` finds `NULL` in the link of the node, and on less than a page if the
structure has `NULL` in `free_fp_list`. -/
theorem hasItsFrames_iff (h0 : 0 ≤ maxSize) (randomflg : Bool) :
    HasItsFrames (initMemphy fpNext old maxSize randomflg) (maxSize / 256).toNat ↔
      (maxSize < 256 → old.freeFpList = .null) ∧
        (256 ≤ maxSize → maxSize < 512 → fpNext = .null) := by
  constructor
  · intro h
    have hlist := h.freeFpList
    constructor
    · intro hnone
      have hzero : maxSize / 256 = 0 := by omega
      rwa [freeFpList_initMemphy_small _ _ _ h0 (by omega), if_pos hnone, hzero] at hlist
    · intro hsome hone
      have hpages : maxSize / 256 = 1 := by omega
      rw [freeFpList_initMemphy_small _ _ _ h0 hone, if_neg (by omega), hpages] at hlist
      exact (Chain.node.inj hlist).2
  · intro h
    apply hasItsFrames_of_freeFpList
    by_cases hsmall : maxSize < 256
    · have hzero : maxSize / 256 = 0 := by omega
      rw [freeFpList_initMemphy_small _ _ _ h0 (by omega), if_pos hsmall, h.1 hsmall, hzero]
      rfl
    · exact freeFpList_initMemphy randomflg h0 (fun hlt => absurd hlt hsmall)
        fun hlt => h.2 (by omega) hlt

theorem hasItsFrames_iff_three :
    HasItsFrames (initMemphy .wild ⟨fun _ => 0, 0, false, 0, .wild⟩ 768 true)
      (768 / 256 : ℤ).toNat :=
  (hasItsFrames_iff (by decide) true).mpr ⟨by decide, by decide⟩

/-- **One page**: over a node that was in use for frame 7, the device hands out a frame
that it does not have. -/
theorem one_page_two_frames :
    ¬ HasItsFrames (initMemphy (.node 7 .null) ⟨fun _ => 0, 0, false, 0, .null⟩ 256 true)
      (256 / 256 : ℤ).toNat ∧
    (getFrames 2 (initMemphy (.node 7 .null) ⟨fun _ => 0, 0, false, 0, .null⟩ 256 true)).map
      Prod.fst = some [.ok 0, .ok 7] := by
  constructor
  · intro h
    exact absurd h.freeFpList (by decide)
  · decide

end SimOs.Memphy
