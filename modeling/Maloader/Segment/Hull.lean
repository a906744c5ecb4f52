import Maloader.Lib.Pages
import Maloader.Loader.Commands

/-!
# The extent of the image

The look-ahead of `ensure_image_mapping_64` goes over all commands by their sizes and keeps the
lowest and the highest address of the segments. It agrees with the walk that loads them.

* `imageSegments`, `spannedSegments`: the segments of a file that are not `__PAGEZERO`, and those of
  them that are not empty.
* `hull_eq_foldl`: the look-ahead as a fold over the segments; `hull_bounds`: what it finds.
* `SegmentCommand64.low`, `SegmentCommand64.high`, **`hull_isLeast_isGreatest`**: the lowest address
  and the highest end where no end wraps; `ImageSpan`, `hull_of_span`.
* `toNat_alignMemory`, `alignMemory_of_le`, `toNat_mapSize`: how much is mapped; `isLeast_pageUp`.
-/

namespace Maloader

open ByteLib PageLib

/-- The segments of the file that belong to the image: all but `__PAGEZERO`. -/
def imageSegments (f : File) : List SegmentCommand64 :=
  (segmentsOf (commands f)).filter fun seg => !seg.isPagezero

/-- The segments the look-ahead takes into account: those of the image that are not empty. -/
def spannedSegments (f : File) : List SegmentCommand64 :=
  (imageSegments f).filter fun seg => seg.vmsize ≠ 0#64

variable (f : File)

theorem mem_spannedSegments {seg : SegmentCommand64} :
    seg ∈ spannedSegments f ↔ seg ∈ imageSegments f ∧ seg.vmsize ≠ 0#64 := by
  rw [spannedSegments, List.mem_filter, decide_eq_true_iff]

/-! ## The look-ahead as a fold -/

/-- The look-ahead on a segment. -/
def hullSegment (mm : Addr × Addr) (seg : SegmentCommand64) : Addr × Addr :=
  if ¬ seg.isPagezero ∧ seg.vmsize ≠ 0#64 then
    (if seg.vmaddr < mm.1 then seg.vmaddr else mm.1,
      if mm.2 < seg.vmaddr + seg.vmsize then seg.vmaddr + seg.vmsize else mm.2)
  else mm

theorem hullStep_eq (mm : Addr × Addr) (p : ℕ) :
    hullStep f mm p = match commandAt f p with
      | .segment64 seg => hullSegment mm seg
      | _ => mm := by
  by_cases hcmd : (loadCommandAt f p).cmd = lcSegment64
  · simp only [hullStep, commandAt, hcmd, true_and]
    rfl
  · have hkind : commandKind (loadCommandAt f p).cmd ≠ .segment64 := mt commandKind_eq_segment64 hcmd
    simp only [hullStep, commandAt, hcmd, false_and, if_false]
    generalize commandKind (loadCommandAt f p).cmd = kind at hkind
    cases kind with
    | segment64 => exact absurd rfl hkind
    | _ => rfl

theorem hullLoop_eq (n p : ℕ) (mm : Addr × Addr) :
    hullLoop f n p mm = (cmdWalk f n p).foldl (hullStep f) mm := by
  induction n generalizing p mm with
  | zero => rfl
  | succ n ih => exact ih _ _

/-- **The look-ahead sees the segments that are loaded.** -/
theorem hull_eq_foldl : hull f = (spannedSegments f).foldl hullSegment (uint64Max, 0#64) := by
  have hskip : ∀ (l : List SegmentCommand64) (mm : Addr × Addr), l.foldl hullSegment mm =
      ((l.filter fun seg => !seg.isPagezero).filter fun seg => seg.vmsize ≠ 0#64).foldl
        hullSegment mm := by
    intro l
    induction l with
    | nil => exact fun mm => rfl
    | cons seg l ih =>
      intro mm
      by_cases hp : seg.isPagezero
      · rw [List.foldl_cons, List.filter_cons_of_neg (by simp [hp]), hullSegment,
          if_neg (fun h => h.1 hp), ih]
      · rw [List.foldl_cons, List.filter_cons_of_pos (by simp [hp])]
        by_cases hz : seg.vmsize = 0#64
        · rw [List.filter_cons_of_neg (by simp [hz]), hullSegment, if_neg (fun h => h.2 hz), ih]
        · rw [List.filter_cons_of_pos (by simp [hz]), List.foldl_cons, ih]
  rw [spannedSegments, imageSegments, ← hskip, segmentsOf, List.foldl_filterMap, commands,
    List.foldl_map, hull, hullLoop_eq]
  refine List.foldl_ext _ _ _ fun mm p _ => ?_
  rw [hullStep_eq]
  cases commandAt f p <;> rfl

/-- The fold of the look-ahead: bounds, and that they are attained. The ends are taken modulo
`2 ^ 64`. -/
theorem foldl_hullSegment {segs : List SegmentCommand64}
    (hs : ∀ seg ∈ segs, ¬ seg.isPagezero ∧ seg.vmsize ≠ 0#64) (mm : Addr × Addr) :
    let r := segs.foldl hullSegment mm
    (r.1.toNat ≤ mm.1.toNat ∧ ∀ seg ∈ segs, r.1.toNat ≤ seg.vmaddr.toNat) ∧
      (r.1 = mm.1 ∨ ∃ seg ∈ segs, seg.vmaddr = r.1) ∧
      (mm.2.toNat ≤ r.2.toNat ∧ ∀ seg ∈ segs, (seg.vmaddr + seg.vmsize).toNat ≤ r.2.toNat) ∧
      (r.2 = mm.2 ∨ ∃ seg ∈ segs, seg.vmaddr + seg.vmsize = r.2) := by
  induction segs generalizing mm with
  | nil => simp
  | cons seg segs ih =>
    have hstep : hullSegment mm seg = (if seg.vmaddr < mm.1 then seg.vmaddr else mm.1,
        if mm.2 < seg.vmaddr + seg.vmsize then seg.vmaddr + seg.vmsize else mm.2) :=
      if_pos (hs seg List.mem_cons_self)
    have hmin : (hullSegment mm seg).1.toNat ≤ mm.1.toNat ∧
        (hullSegment mm seg).1.toNat ≤ seg.vmaddr.toNat ∧
        ((hullSegment mm seg).1 = mm.1 ∨ (hullSegment mm seg).1 = seg.vmaddr) := by
      rw [hstep]
      dsimp only
      split_ifs with h <;> rw [BitVec.lt_def] at h
      · exact ⟨by omega, le_rfl, .inr rfl⟩
      · exact ⟨le_rfl, by omega, .inl rfl⟩
    have hmax : mm.2.toNat ≤ (hullSegment mm seg).2.toNat ∧
        (seg.vmaddr + seg.vmsize).toNat ≤ (hullSegment mm seg).2.toNat ∧
        ((hullSegment mm seg).2 = mm.2 ∨ (hullSegment mm seg).2 = seg.vmaddr + seg.vmsize) := by
      rw [hstep]
      dsimp only
      split_ifs with h <;> rw [BitVec.lt_def] at h
      · exact ⟨by omega, le_rfl, .inr rfl⟩
      · exact ⟨le_rfl, by omega, .inl rfl⟩
    obtain ⟨⟨h1, h1'⟩, h2, ⟨h3, h3'⟩, h4⟩ :=
      ih (fun s h => hs s (List.mem_cons_of_mem _ h)) (hullSegment mm seg)
    rw [List.foldl_cons]
    simp only [List.forall_mem_cons, List.exists_mem_cons_iff]
    refine ⟨⟨h1.trans hmin.1, h1.trans hmin.2.1, h1'⟩, ?_,
      ⟨hmax.1.trans h3, hmax.2.1.trans h3, h3'⟩, ?_⟩
    · rcases h2 with h2 | h2
      · rcases hmin.2.2 with he | he
        · exact .inl (h2.trans he)
        · exact .inr (.inl (h2.trans he).symm)
      · exact .inr (.inr h2)
    · rcases h4 with h4 | h4
      · rcases hmax.2.2 with he | he
        · exact .inl (h4.trans he)
        · exact .inr (.inl (h4.trans he).symm)
      · exact .inr (.inr h4)

theorem hull_bounds :
    (∀ seg ∈ spannedSegments f, (hull f).1.toNat ≤ seg.vmaddr.toNat) ∧
      ((hull f).1 = uint64Max ∨ ∃ seg ∈ spannedSegments f, seg.vmaddr = (hull f).1) ∧
      (∀ seg ∈ spannedSegments f, (seg.vmaddr + seg.vmsize).toNat ≤ (hull f).2.toNat) ∧
      ((hull f).2 = 0#64 ∨ ∃ seg ∈ spannedSegments f, seg.vmaddr + seg.vmsize = (hull f).2) := by
  have hs : ∀ seg ∈ spannedSegments f, ¬ seg.isPagezero ∧ seg.vmsize ≠ 0#64 := fun seg hseg => by
    obtain ⟨himage, hsize⟩ := (mem_spannedSegments f).mp hseg
    exact ⟨by simpa using (List.mem_filter.mp himage).2, hsize⟩
  obtain ⟨⟨-, h1⟩, h2, ⟨-, h3⟩, h4⟩ := foldl_hullSegment hs (uint64Max, 0#64)
  rw [hull_eq_foldl]
  exact ⟨h1, h2, h3, h4⟩

/-! ## Lowest address and highest end -/

/-- The first address of a segment. -/
def SegmentCommand64.low (seg : SegmentCommand64) : ℕ := seg.vmaddr.toNat

/-- The address behind a segment. -/
def SegmentCommand64.high (seg : SegmentCommand64) : ℕ := seg.vmaddr.toNat + seg.vmsize.toNat

theorem low_lt_high {seg : SegmentCommand64} (h : seg ∈ spannedSegments f) : seg.low < seg.high := by
  have hpos : seg.vmsize.toNat ≠ 0 := fun e =>
    ((mem_spannedSegments f).mp h).2 (BitVec.eq_of_toNat_eq e)
  exact Nat.lt_add_of_pos_right (Nat.pos_of_ne_zero hpos)

theorem hull_of_nil (h : spannedSegments f = []) : hull f = (uint64Max, 0#64) := by
  rw [hull_eq_foldl, h, List.foldl_nil]

/-- **The lowest address and the highest end** are what the look-ahead finds, if there is a segment
to count and no end wraps. -/
theorem hull_isLeast_isGreatest (hne : spannedSegments f ≠ [])
    (hends : ∀ seg ∈ spannedSegments f, seg.high < 2 ^ 64) :
    IsLeast (SegmentCommand64.low '' {seg | seg ∈ spannedSegments f}) (hull f).1.toNat ∧
      IsGreatest (SegmentCommand64.high '' {seg | seg ∈ spannedSegments f}) (hull f).2.toNat := by
  have hstop : ∀ seg ∈ spannedSegments f, (seg.vmaddr + seg.vmsize).toNat = seg.high :=
    fun seg hseg => by
      rw [BitVec.toNat_add]
      exact Nat.mod_eq_of_lt (hends seg hseg)
  obtain ⟨h1, h2, h3, h4⟩ := hull_bounds f
  obtain ⟨s, hs⟩ := List.exists_mem_of_ne_nil _ hne
  have hlow : (hull f).1.toNat ≤ s.low := h1 s hs
  have hhigh := h3 s hs
  have hlt := low_lt_high f hs
  have hend := hends s hs
  rw [hstop s hs] at hhigh
  refine ⟨⟨?_, ?_⟩, ⟨?_, ?_⟩⟩
  · rcases h2 with h2 | ⟨t, ht, h2⟩
    · have hmax : (hull f).1.toNat = 2 ^ 64 - 1 := congrArg BitVec.toNat h2
      omega
    · exact ⟨t, ht, congrArg BitVec.toNat h2⟩
  · rintro _ ⟨t, ht, rfl⟩
    exact h1 t ht
  · rcases h4 with h4 | ⟨t, ht, h4⟩
    · have hzero : (hull f).2.toNat = 0 := congrArg BitVec.toNat h4
      omega
    · exact ⟨t, ht, (hstop t ht).symm.trans (congrArg BitVec.toNat h4)⟩
  · rintro _ ⟨t, ht, rfl⟩
    exact (hstop t ht).ge.trans (h3 t ht)

/-- `base` is the lowest address and `top` the highest end of the segments. -/
structure ImageSpan (segs : List SegmentCommand64) (base top : ℕ) : Prop where
  base_le : ∀ seg ∈ segs, base ≤ seg.vmaddr.toNat
  base_mem : ∃ seg ∈ segs, seg.vmaddr.toNat = base
  le_top : ∀ seg ∈ segs, seg.vmaddr.toNat + seg.vmsize.toNat ≤ top
  top_mem : ∃ seg ∈ segs, seg.vmaddr.toNat + seg.vmsize.toNat = top

instance (segs : List SegmentCommand64) (base top : ℕ) : Decidable (ImageSpan segs base top) :=
  decidable_of_iff ((∀ seg ∈ segs, base ≤ seg.vmaddr.toNat) ∧
      (∃ seg ∈ segs, seg.vmaddr.toNat = base) ∧
      (∀ seg ∈ segs, seg.vmaddr.toNat + seg.vmsize.toNat ≤ top) ∧
      ∃ seg ∈ segs, seg.vmaddr.toNat + seg.vmsize.toNat = top)
    ⟨fun ⟨h1, h2, h3, h4⟩ => ⟨h1, h2, h3, h4⟩, fun h => ⟨h.1, h.2, h.3, h.4⟩⟩

/-- The segment is not empty and ends below `2 ^ 64`. -/
def SegmentCommand64.Spans (seg : SegmentCommand64) : Prop :=
  seg.vmsize ≠ 0#64 ∧ seg.vmaddr.toNat + seg.vmsize.toNat < 2 ^ 64

instance (seg : SegmentCommand64) : Decidable seg.Spans := by
  unfold SegmentCommand64.Spans; infer_instance

theorem hull_of_span {base top : ℕ} (h : ImageSpan (imageSegments f) base top)
    (hs : ∀ seg ∈ imageSegments f, seg.Spans) :
    (hull f).1.toNat = base ∧ (hull f).2.toNat = top := by
  have hall : spannedSegments f = imageSegments f :=
    List.filter_eq_self.mpr fun seg hseg => decide_eq_true (hs seg hseg).1
  obtain ⟨s, hlow, hbase⟩ := h.base_mem
  obtain ⟨t, hhigh, htop⟩ := h.top_mem
  have hfound := hull_isLeast_isGreatest f (hall ▸ List.ne_nil_of_mem hlow)
    fun seg hseg => (hs seg (hall ▸ hseg)).2
  rw [hall] at hfound
  constructor
  · refine hfound.1.unique ⟨⟨s, hlow, hbase⟩, ?_⟩
    rintro _ ⟨seg, hseg, rfl⟩
    exact h.base_le seg hseg
  · refine hfound.2.unique ⟨⟨t, hhigh, htop⟩, ?_⟩
    rintro _ ⟨seg, hseg, rfl⟩
    exact h.le_top seg hseg

/-! ## The size of the mapping -/

theorem and_not_pageMask (x : BitVec 64) : x &&& ~~~0xfff#64 = (x >>> 12) <<< 12 := by
  have hmask : ∀ i < 64, (~~~0xfff#64).getLsbD i = decide (12 ≤ i) := by decide
  refine BitVec.eq_of_getLsbD_eq fun i hi => ?_
  rw [BitVec.getLsbD_and, hmask i hi, BitVec.getLsbD_shiftLeft, BitVec.getLsbD_ushiftRight]
  by_cases h : 12 ≤ i
  · simp [h, hi, Nat.add_sub_cancel' h, Nat.not_lt.mpr h]
  · simp [h, Nat.not_le.mp h]

/-- A length rounded up to pages. -/
def pageUp (n : ℕ) : ℕ := (n + 0xfff) / 0x1000 * 0x1000

theorem pageUp_eq_roundUp (n : ℕ) : pageUp n = roundUp 0x1000 n := rfl

theorem isLeast_pageUp (n : ℕ) : IsLeast {k | 0x1000 ∣ k ∧ n ≤ k} (pageUp n) := by
  rw [pageUp_eq_roundUp]
  exact isLeast_roundUp (by norm_num) n

theorem le_pageUp (n : ℕ) : n ≤ pageUp n := (isLeast_pageUp n).1.2

theorem toNat_alignMemory {p : BitVec 64} (hp : p.toNat + 0xfff < 2 ^ 64) :
    (alignMemory p 0x1000#64).toNat = pageUp p.toNat := by
  have hm : 0x1000#64 - 1#64 = 0xfff#64 := by decide
  have hdiv : (p.toNat + 0xfff) / 0x1000 * 0x1000 < 2 ^ 64 := by omega
  rw [alignMemory, hm, and_not_pageMask, BitVec.toNat_shiftLeft, BitVec.toNat_ushiftRight,
    BitVec.toNat_add, Nat.shiftRight_eq_div_pow, Nat.shiftLeft_eq,
    show (0xfff#64).toNat = 0xfff from rfl, Nat.mod_eq_of_lt hp, Nat.mod_eq_of_lt hdiv]
  rfl

/-- Close below `2 ^ 64` the sum wraps and the length becomes zero. -/
theorem alignMemory_of_le {p : BitVec 64} (hp : 2 ^ 64 ≤ p.toNat + 0xfff) :
    alignMemory p 0x1000#64 = 0#64 := by
  have hm : 0x1000#64 - 1#64 = 0xfff#64 := by decide
  refine BitVec.eq_of_toNat_eq ?_
  rw [alignMemory, hm, and_not_pageMask, BitVec.toNat_shiftLeft, BitVec.toNat_ushiftRight,
    BitVec.toNat_add, Nat.shiftRight_eq_div_pow, Nat.shiftLeft_eq,
    show (0xfff#64).toNat = 0xfff from rfl]
  have hlt := p.isLt
  have hmod : (p.toNat + 0xfff) % 2 ^ 64 < 0x1000 := by omega
  rw [Nat.div_eq_of_lt hmod]
  rfl

/-- The length that is mapped. -/
def mapSize (f : File) : BitVec 64 := alignMemory ((hull f).2 - (hull f).1) 0x1000#64

theorem toNat_mapSize {base top : ℕ} (h1 : (hull f).1.toNat = base) (h2 : (hull f).2.toNat = top)
    (hle : base ≤ top) (hspan : top - base ≤ 2 ^ 64 - 0x1000) :
    (mapSize f).toNat = pageUp (top - base) := by
  have hsub : ((hull f).2 - (hull f).1).toNat = top - base := by
    rw [BitVec.toNat_sub_of_le (by rw [BitVec.le_def]; omega), h1, h2]
  rw [mapSize, toNat_alignMemory (by omega), hsub]

end Maloader
