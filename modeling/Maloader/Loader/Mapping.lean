import Maloader.Host.Bounds

/-!
# The mapping of a run

`load_segment_64` calls `ensure_image_mapping_64` for every segment. The first call that succeeds
maps the image, as tightly as whole pages allow, and the calls behind it find it mapped.

* `ImageHull`: the pages that hold the segments and no more; `imageHull`: the look-ahead finds them.
* `UnsetCall`, `unsetCall`: a call that finds nothing mapped.
* `StaysMapped`, `staysMapped_loaderStep`: a turn that finds the image mapped leaves it so;
  `imgAddr_loaderStep_iff`: a turn that does not.
* **`imageMapping_once`**: the mapping over a run.
-/

namespace Maloader

open ByteLib WalkLib PageLib

/-! ## One call -/

/-- The pages from `base` on hold the segments that are not `__PAGEZERO` and not empty: `base` is the
lowest address, `size` the least number of whole pages up to the highest end. -/
def ImageHull (f : File) (base : Addr) (size : BitVec 64) : Prop :=
  TightHull 0x1000 {seg | seg ∈ spannedSegments f} SegmentCommand64.low SegmentCommand64.high
    base.toNat size.toNat

/-- No segment's end wraps, and all of them fit in the address space when the size is rounded up. -/
structure EndsBelow (f : File) : Prop where
  high_lt : ∀ seg ∈ spannedSegments f, seg.high < 2 ^ 64
  span_le : ∀ seg ∈ spannedSegments f, ∀ seg' ∈ spannedSegments f,
    seg.high - seg'.low ≤ 2 ^ 64 - 0x1000

variable {E : Env} {f : File}

theorem ImageHull.unique {base base' : Addr} {size size' : BitVec 64} (h : ImageHull f base size)
    (h' : ImageHull f base' size') : base = base' ∧ size = size' := by
  obtain ⟨hbase, hsize⟩ := TightHull.unique h h'
  exact ⟨BitVec.eq_of_toNat_eq hbase, BitVec.eq_of_toNat_eq hsize⟩

/-- **The look-ahead finds the hull**, and there is something to map. -/
theorem imageHull (hf : EndsBelow f) (hne : spannedSegments f ≠ []) :
    ImageHull f (hull f).1 (mapSize f) ∧ (hull f).1 ≠ uint64Max ∧ (hull f).1 < (hull f).2 := by
  obtain ⟨hlow, hhigh⟩ := hull_isLeast_isGreatest f hne hf.high_lt
  obtain ⟨s, hs, hbase⟩ := hlow.1
  obtain ⟨t, ht, htop⟩ := hhigh.1
  have hlt := low_lt_high f hs
  have hend := hf.high_lt s hs
  have hle : s.high ≤ (hull f).2.toNat := hhigh.2 (Set.mem_image_of_mem _ hs)
  have hspan := hf.span_le t ht s hs
  rw [hbase, htop] at hspan
  refine ⟨⟨hlow, (hull f).2.toNat, hhigh, ?_⟩, fun he => ?_, ?_⟩
  · rw [toNat_mapSize f rfl rfl (by omega) hspan]
    exact isLeast_pageUp _
  · have hmax : (hull f).1.toNat = 2 ^ 64 - 1 := congrArg BitVec.toNat he
    omega
  · rw [BitVec.lt_def]
    omega

theorem spannedSegments_ne_nil (hmax : (hull f).1 ≠ uint64Max) : spannedSegments f ≠ [] :=
  fun hnil => hmax (congrArg Prod.fst (hull_of_nil f hnil))

/-- A call that finds nothing mapped. If it succeeds it has mapped the hull of the segments; it fails
exactly if there are none or `mmap` refuses their hull, and leaves the context as it was. -/
structure UnsetCall (E : Env) (f : File) (c : MachContext) : Prop where
  success : (ensureImageMapping64 E f c).1 = 0 → ∃ base size B, ImageHull f base size ∧
    E.mmap c.mmaps base size = some B ∧ B ≠ 0#64 ∧ (ensureImageMapping64 E f c).2 =
      { c with
        imgAddr := B
        vAddr := base
        mem := zeroFill c.mem B size.toNat
        mmaps := c.mmaps ++ [⟨base, size, some B⟩] }
  failure : (ensureImageMapping64 E f c).1 ≠ 0 ↔ spannedSegments f = [] ∨
    ∃ base size, ImageHull f base size ∧ E.mmap c.mmaps base size = none
  unchanged : (ensureImageMapping64 E f c).1 ≠ 0 → ∃ refused : List MmapCall,
    (∀ call ∈ refused, call.result = none) ∧
      (ensureImageMapping64 E f c).2 = { c with mmaps := c.mmaps ++ refused }

theorem unsetCall (hmmap : ∀ calls addr n, E.mmap calls addr n ≠ some 0#64) (hf : EndsBelow f)
    {c : MachContext} (hi : c.imgAddr = 0#64) : UnsetCall E f c := by
  obtain ⟨hne, -⟩ | ⟨-, hhull, he⟩ | ⟨-, hmax, -, hmap, he⟩ | ⟨-, hmax, -, B, hmap, he⟩ :=
    ensureImageMapping64_cases E f c
  · exact absurd hi hne
  · have hnil : spannedSegments f = [] := by
      by_contra hne
      obtain ⟨-, hmax, hlt⟩ := imageHull hf hne
      rcases hhull with hhull | hhull
      · exact hmax hhull
      · exact absurd hlt (BitVec.not_lt.mpr hhull)
    exact {
      success := fun h => absurd h (by simp [he])
      failure := iff_of_true (by simp [he]) (.inl hnil)
      unchanged := fun _ => ⟨[], by simp, by rw [he, List.append_nil]⟩ }
  · have himage := (imageHull hf (spannedSegments_ne_nil hmax)).1
    exact {
      success := fun h => absurd h (by simp [he])
      failure := iff_of_true (by simp [he]) (.inr ⟨_, _, himage, hmap⟩)
      unchanged := fun _ => ⟨[⟨(hull f).1, mapSize f, none⟩], by simp, by rw [he]⟩ }
  · have hne := spannedSegments_ne_nil hmax
    have himage := (imageHull hf hne).1
    have hfails : ¬ (spannedSegments f = [] ∨
        ∃ base size, ImageHull f base size ∧ E.mmap c.mmaps base size = none) := by
      rintro (hnil | ⟨base, size, h, hnone⟩)
      · exact hne hnil
      · obtain ⟨rfl, rfl⟩ := h.unique himage
        rw [hmap] at hnone
        cases hnone
    exact {
      success := fun _ => ⟨_, _, B, himage, hmap, fun hB => hmmap _ _ _ (hB ▸ hmap), by rw [he]; rfl⟩
      failure := iff_of_false (by simp [he]) hfails
      unchanged := fun h => absurd (by rw [he]) h }

/-! ## One turn -/

/-- The turn comes to a segment, so that it calls `ensure_image_mapping_64`. -/
def CallsMapping (f : File) (c : MachContext) : Prop := (loadCommandAt f c.ptr).cmd = lcSegment64

/-- Nothing is mapped between the two contexts, and the image stays where it is. -/
structure SameMapping (c d : MachContext) : Prop where
  imgAddr : d.imgAddr = c.imgAddr
  vAddr : d.vAddr = c.vAddr
  mmaps : d.mmaps = c.mmaps

theorem SameMapping.trans {c d e : MachContext} (h : SameMapping c d) (h' : SameMapping d e) :
    SameMapping c e :=
  ⟨h'.imgAddr.trans h.imgAddr, h'.vAddr.trans h.vAddr, h'.mmaps.trans h.mmaps⟩

theorem SameMapping.atPtr {c d : MachContext} (h : SameMapping c d) (p : ℕ) :
    SameMapping c (d.atPtr p) := ⟨h.imgAddr, h.vAddr, h.mmaps⟩

theorem sameMapping_of_calls {c : MachContext} (h : CallsMapping f c) :
    SameMapping (ensureImageMapping64 E f c).2 (loaderStep E f c) := by
  obtain ⟨himg, hv, hm⟩ :=
    copySegment_fields f (ensureImageMapping64 E f c).2 (segmentCommand64 f c.ptr)
  have hcmd : commandAt f c.ptr = .segment64 (segmentCommand64 f c.ptr) := by
    rw [commandAt, h]
    rfl
  have hexec : SameMapping (ensureImageMapping64 E f c).2
      (execSegment E f c (segmentCommand64 f c.ptr)) := ⟨himg, hv, hm⟩
  rw [loaderStep_advance, hcmd]
  exact hexec.atPtr _

theorem sameMapping_of_not_calls {c : MachContext} (h : ¬ CallsMapping f c) :
    SameMapping c (loaderStep E f c) := by
  have hcmd : ∀ seg, commandAt f c.ptr ≠ .segment64 seg := by
    intro seg he
    unfold commandAt at he
    split at he
    · next hkind => exact h (commandKind_eq_segment64 hkind)
    all_goals cases he
  obtain ⟨himg, hv, hm, -⟩ := keeps_execCommand E f c hcmd
  have hexec : SameMapping c (execCommand E f c (commandAt f c.ptr)) := ⟨himg, hv, hm⟩
  rw [loaderStep_advance]
  exact hexec.atPtr _

/-- Once the image is mapped, it stays where it is and nothing is mapped again. -/
def StaysMapped (c d : MachContext) : Prop := c.imgAddr ≠ 0#64 → SameMapping c d

theorem StaysMapped.trans {c d e : MachContext} (h : StaysMapped c d) (h' : StaysMapped d e) :
    StaysMapped c e := by
  intro hi
  have hcd := h hi
  exact hcd.trans (h' (hcd.imgAddr ▸ hi))

/-- **A turn that finds the image mapped** leaves the mapping alone. -/
theorem staysMapped_loaderStep (E : Env) (f : File) (c : MachContext) :
    StaysMapped c (loaderStep E f c) := by
  intro hi
  by_cases h : CallsMapping f c
  · have hstep := sameMapping_of_calls (E := E) h
    rwa [ensureImageMapping64_of_ne E f hi] at hstep
  · exact sameMapping_of_not_calls h

theorem imgAddr_loaderStep_iff (hmmap : ∀ calls addr n, E.mmap calls addr n ≠ some 0#64)
    (c : MachContext) : (loaderStep E f c).imgAddr = 0#64 ↔
      c.imgAddr = 0#64 ∧ (CallsMapping f c → (ensureImageMapping64 E f c).1 ≠ 0) := by
  by_cases h : CallsMapping f c
  · rw [(sameMapping_of_calls (E := E) h).imgAddr]
    simp only [h, true_implies]
    obtain ⟨hne, he⟩ | ⟨hi, -, he⟩ | ⟨hi, -, -, -, he⟩ | ⟨-, -, -, B, hmap, he⟩ :=
      ensureImageMapping64_cases E f c
    · rw [he]
      exact iff_of_false hne fun h => hne h.1
    · rw [he]
      exact iff_of_true hi ⟨hi, by simp⟩
    · rw [he]
      exact iff_of_true hi ⟨hi, by simp⟩
    · rw [he]
      exact iff_of_false (fun hB => hmmap _ _ _ ((show B = 0#64 from hB) ▸ hmap)) fun h => h.2 rfl
  · rw [(sameMapping_of_not_calls (E := E) h).imgAddr]
    simp [h]

/-! ## A run -/

/-- The contexts at the start of the turns of a run, and the one it ends in. -/
def runStates (E : Env) (f : File) (m : Mem 64) : List MachContext :=
  runTurns E f m ++ [(loader64 E f (MachContext.zero m)).2]

theorem pairwise_runStates (E : Env) (f : File) (m : Mem 64) :
    (runStates E f m).Pairwise StaysMapped := by
  unfold runStates runTurns
  split_ifs with hexec
  · have hrun := pairwise_iterate (R := StaysMapped) (fun _ _ _ h h' => h.trans h')
      (staysMapped_loaderStep E f) ((MachContext.zero m).atPtr machHeader64Size)
      ((machHeader64 f).ncmds.toNat + 1)
    rw [List.iterate_add] at hrun
    rw [loader64_eq_iterate E f hexec]
    exact hrun
  · exact List.pairwise_singleton _ _

/-- **Nothing is mapped** at a turn exactly if all calls before it have failed. -/
theorem imgAddr_eq_zero_iff (hmmap : ∀ calls addr n, E.mmap calls addr n ≠ some 0#64) {m : Mem 64}
    {before after : List MachContext} {c : MachContext} (h : runTurns E f m = before ++ c :: after) :
    c.imgAddr = 0#64 ↔
      ∀ d ∈ before, CallsMapping f d → (ensureImageMapping64 E f d).1 ≠ 0 := by
  refine runTurns_history (P := fun before c => c.imgAddr = 0#64 ↔
    ∀ d ∈ before, CallsMapping f d → (ensureImageMapping64 E f d).1 ≠ 0) ?_ ?_ h
  · exact iff_of_true rfl fun d hd => absurd hd List.not_mem_nil
  · intro l b _ hb
    rw [imgAddr_loaderStep_iff hmmap, hb, List.forall_mem_append, List.forall_mem_singleton]

/-- **The image is mapped once, and tightly.** Let no segment's end wrap and the span of the segments
be at most `2 ^ 64 - 0x1000`, and let `mmap` never grant `NULL`. A call that finds nothing mapped
maps the hull of the segments; it fails, and leaves the context as it was, exactly if there are none
or `mmap` refuses their hull. The segments lie inside the hull, and with fewer pages one does not. In
a run nothing is mapped until a first call succeeds; the context behind a turn has the mapping that
its call has left; and once the image is mapped it stays where it is and nothing is mapped again. -/
theorem imageMapping_once (E : Env) (f : File) (m : Mem 64)
    (hmmap : ∀ calls addr n, E.mmap calls addr n ≠ some 0#64) (hf : EndsBelow f) :
    (∀ c : MachContext, c.imgAddr = 0#64 → UnsetCall E f c) ∧
      (∀ base size, ImageHull f base size →
        (∀ seg ∈ spannedSegments f,
          base.toNat ≤ seg.low ∧ seg.high ≤ base.toNat + size.toNat) ∧
        ∀ n, 0x1000 * n < size.toNat →
          ∃ seg ∈ spannedSegments f, base.toNat + 0x1000 * n < seg.high) ∧
      (∀ before c after, runTurns E f m = before ++ c :: after →
        (c.imgAddr = 0#64 ↔
          ∀ d ∈ before, CallsMapping f d → (ensureImageMapping64 E f d).1 ≠ 0) ∧
        (CallsMapping f c → SameMapping (ensureImageMapping64 E f c).2 (loaderStep E f c))) ∧
      (runStates E f m).Pairwise StaysMapped := by
  refine ⟨fun c hi => unsetCall hmmap hf hi, fun base size h => ?_, fun before c after h => ?_,
    pairwise_runStates E f m⟩
  · exact ⟨fun seg hseg => TightHull.inside h hseg, fun n hn => TightHull.exists_outside h hn⟩
  · exact ⟨imgAddr_eq_zero_iff hmmap h, sameMapping_of_calls⟩

/-- `__PAGEZERO` and two segments with a gap between them; the second ends inside a page. -/
def gapFile : File :=
  encodeHeader 3 ++ encodeSegment64 segPagezero 0 0x4000 0 0 ++
    encodeSegment64 segText 0x4000 0x1000 0 0 ++ encodeSegment64 (lit "__DATA") 0x6000 0x10 0 0

theorem endsBelow_gapFile : EndsBelow gapFile where
  high_lt := by decide +kernel
  span_le := by decide +kernel

/-- They take three pages. The call for `__PAGEZERO` maps these, and no other call maps anything. -/
theorem imageMapping_once_gapFile :
    ImageHull gapFile 0x4000#64 0x3000#64 ∧
      (loader64 mmapEnv gapFile (MachContext.zero fun _ => 0#8)).2.mmaps =
        [⟨0x4000#64, 0x3000#64, some 0x7000#64⟩] := by
  let first : MachContext := (MachContext.zero fun _ => 0#8).atPtr machHeader64Size
  let second := loaderStep mmapEnv gapFile first
  have hmmap : ∀ calls addr n, mmapEnv.mmap calls addr n ≠ some 0#64 := by
    intro calls addr n
    simp only [mmapEnv]
    split_ifs <;> decide
  obtain ⟨hcall, -, -, hstays⟩ :=
    imageMapping_once mmapEnv gapFile (fun _ => 0#8) hmmap endsBelow_gapFile
  have hsecond : second ∈ runTurns mmapEnv gapFile fun _ => 0#8 := by
    have hexec : (machHeader64 gapFile).filetype = mhExecute := by decide +kernel
    have hcount : (machHeader64 gapFile).ncmds.toNat = 3 := by decide +kernel
    rw [runTurns, if_pos hexec, loaderTurns, hcount]
    exact List.mem_cons_of_mem _ List.mem_cons_self
  have hmmaps : second.mmaps = [⟨0x4000#64, 0x3000#64, some 0x7000#64⟩] := by decide +kernel
  constructor
  · obtain ⟨base, size, B, himage, -, -, he⟩ := (hcall first rfl).success (by decide +kernel)
    have hlog : (ensureImageMapping64 mmapEnv gapFile first).2.mmaps =
        [⟨0x4000#64, 0x3000#64, some 0x7000#64⟩] := by decide +kernel
    rw [he] at hlog
    obtain ⟨rfl, rfl, -⟩ := MmapCall.mk.inj (List.singleton_inj.mp hlog)
    exact himage
  · have hlast := (List.pairwise_append.mp hstays).2.2 second hsecond _ (List.mem_singleton_self _)
    rw [(hlast (by decide +kernel)).mmaps, hmmaps]

end Maloader
